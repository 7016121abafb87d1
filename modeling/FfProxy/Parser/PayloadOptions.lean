import FfProxy.Parser.Options

/-!
# Options at the start of the payload

`ff_request_parse_options_from_payload`, `src/parser.c:367–423`: a header option list
closed by BREAK continues at the start of the payload. The options found there are
appended to those of the header, and the payload shrinks to what follows them.
-/

namespace FfProxy
open Base

/-- The pointer and byte count handed to the option parser, `src/parser.c:384`. -/
def PayloadNode.buffer (node : PayloadNode) : Buffer :=
  ⟨node.value, node.length.toNat, node.length_le⟩

/-- The bytes the parser sees are the payload's. -/
@[simp] theorem PayloadNode.bytes_buffer (node : PayloadNode) :
    node.buffer.bytes = node.bytes := rfl

/-- The payload node that replaces one whose first `n` bytes were options,
`src/parser.c:404–406`. -/
def PayloadNode.dropOptions (node : PayloadNode) (n : Nat) (h : n < node.length.toNat) :
    PayloadNode where
  offset := 0
  length := UInt16.ofNat (node.length.toNat - n)
  value := slice node.value n (node.length.toNat - n)
  length_le := by
    have hl := node.length_le
    have h16 : node.length.toNat < 65536 := node.length.toNat_lt
    rw [length_slice _ _ _ (by omega), UInt16.toNat_ofNat', Nat.mod_eq_of_lt (by omega)]

/-- The exits after the option parse, `src/parser.c:386–423`: what becomes of the request
when `result` is the request and the bytes consumed. -/
def payloadOptionsExit (node : PayloadNode) (result : Request × Nat) : Request :=
  let r := result.1
  let n := result.2
  if n = 0 then { r with state := .parsingOptionsFailed }
  else if h : node.length.toNat ≤ n then { r with state := .parsingOptionsFailed }
  else if r.payloadContainsOptions then { r with state := .parsingOptionsFailed }
  else
    let newPayload := node.dropOptions n (Nat.not_le.mp h)
    { r with
      payload := [newPayload]
      payloadLength := newPayload.length.toUInt64
      state := .parsedOptions }

/-- `ff_request_parse_options_from_payload`, `src/parser.c:367–423`, on the contents of the
payload. Which node is released at which exit is a matter of its own. -/
def ffRequestParseOptionsFromPayload (r : Request) : Except Fault Request :=
  match r.payload with
  | [node] =>
    if r.payloadContainsOptions then
      .ok (payloadOptionsExit node
        (ffRequestParseOptions { r with state := .parsingOptions } node.buffer))
    else .ok { r with state := .parsedOptions }
  | _ => .error .assertion

/-- What follows the options is what the new node carries. -/
@[simp] theorem PayloadNode.bytes_dropOptions (node : PayloadNode) (n : Nat)
    (h : n < node.length.toNat) : (node.dropOptions n h).bytes = node.bytes.drop n := by
  have h16 : node.length.toNat < 65536 := node.length.toNat_lt
  simp only [PayloadNode.bytes, PayloadNode.dropOptions, slice, UInt16.toNat_ofNat', List.take_take,
    List.drop_take, Nat.mod_eq_of_lt (show node.length.toNat - n < 2 ^ 16 by omega), Nat.min_self]

/-- The new node is as long as what follows the options. -/
@[simp] theorem PayloadNode.length_dropOptions (node : PayloadNode) (n : Nat)
    (h : n < node.length.toNat) :
    (node.dropOptions n h).length.toNat = node.length.toNat - n := by
  have h16 : node.length.toNat < 65536 := node.length.toNat_lt
  rw [PayloadNode.dropOptions, UInt16.toNat_ofNat', Nat.mod_eq_of_lt (by omega)]

section Exits

variable (r : Request) (node : PayloadNode)

private theorem fromPayload_single (hp : r.payload = [node]) :
    ffRequestParseOptionsFromPayload r =
      if r.payloadContainsOptions then
        .ok (payloadOptionsExit node
          (ffRequestParseOptions { r with state := .parsingOptions } node.buffer))
      else .ok { r with state := .parsedOptions } := by
  unfold ffRequestParseOptionsFromPayload
  split
  · next n h =>
    obtain rfl : n = node := by simpa [hp] using h.symm
    rfl
  · next h => exact absurd hp (h node)

private theorem parseOptions_state (s : RequestState) (b : Buffer) :
    ffRequestParseOptions { r with state := s } b =
      ({ (ffRequestParseOptions r b).1 with state := s }, (ffRequestParseOptions r b).2) := by
  have ho : ({ r with state := s } : Request).optionsLength = r.optionsLength := rfl
  unfold ffRequestParseOptions
  rw [ho]
  cases parseOptionsLoop b (ffRequestMaxOptions - r.optionsLength) 0 [] with
  | none => rfl
  | some parsed => rfl

/-- A payload without options is left alone. -/
theorem ffRequestParseOptionsFromPayload_of_not_contains (hp : r.payload = [node])
    (hc : r.payloadContainsOptions = false) :
    ffRequestParseOptionsFromPayload r = .ok { r with state := .parsedOptions } := by
  rw [fromPayload_single r node hp, if_neg (by simp [hc])]

/-- A payload that does not start with an option list is refused. -/
theorem ffRequestParseOptionsFromPayload_of_malformed (hp : r.payload = [node])
    (hc : r.payloadContainsOptions = true)
    (hm : ffRequestParseOptions r node.buffer = (r, 0)) :
    ffRequestParseOptionsFromPayload r = .ok { r with state := .parsingOptionsFailed } := by
  rw [fromPayload_single r node hp, if_pos hc, parseOptions_state, hm]
  rfl

private theorem encodeOptions_length_ne_zero (os : List OptionNode) (brk : Bool) :
    (encodeOptions os brk).length ≠ 0 := by
  have hpos := optionHeaderSize_le_encodeOptions os brk
  unfold optionHeaderSize at hpos
  omega

/-- A list that leaves nothing of the payload, or is closed by a second BREAK, is taken and
then refused. -/
theorem ffRequestParseOptionsFromPayload_of_refused (os : List OptionNode) (brk : Bool)
    (hp : r.payload = [node]) (hc : r.payloadContainsOptions = true)
    (ho : ffRequestParseOptions r node.buffer =
      (r.addOptions os brk, (encodeOptions os brk).length))
    (hr : node.length.toNat ≤ (encodeOptions os brk).length ∨ brk = true) :
    ffRequestParseOptionsFromPayload r =
      .ok { r.addOptions os brk with state := .parsingOptionsFailed } := by
  rw [fromPayload_single r node hp, if_pos hc, parseOptions_state, ho]
  simp only [payloadOptionsExit, encodeOptions_length_ne_zero, ↓reduceIte]
  by_cases hl : node.length.toNat ≤ (encodeOptions os brk).length
  · rw [dif_pos hl]
  · have hb : (r.addOptions os brk).payloadContainsOptions = true := hr.resolve_left hl
    rw [dif_neg hl, if_pos hb]

/-- A list closed by EOL in front of a rest is taken, and the rest becomes the payload. -/
theorem ffRequestParseOptionsFromPayload_of_taken (os : List OptionNode)
    (hp : r.payload = [node]) (hc : r.payloadContainsOptions = true)
    (ho : ffRequestParseOptions r node.buffer =
      (r.addOptions os false, (encodeOptions os false).length))
    (hl : (encodeOptions os false).length < node.length.toNat) :
    ffRequestParseOptionsFromPayload r = .ok { r.addOptions os false with
      payload := [node.dropOptions _ hl]
      payloadLength := (node.dropOptions _ hl).length.toUInt64
      state := .parsedOptions } := by
  rw [fromPayload_single r node hp, if_pos hc, parseOptions_state, ho]
  simp only [payloadOptionsExit, encodeOptions_length_ne_zero, ↓reduceIte]
  rw [dif_neg (Nat.not_le.mpr hl), if_neg (by simp [Request.addOptions])]

/-- The exits of the function on a request with a single payload node. -/
theorem ffRequestParseOptionsFromPayload_cases (hp : r.payload = [node]) :
    (r.payloadContainsOptions = false ∧
      ffRequestParseOptionsFromPayload r = .ok { r with state := .parsedOptions }) ∨
    (r.payloadContainsOptions = true ∧ ffRequestParseOptions r node.buffer = (r, 0) ∧
      ffRequestParseOptionsFromPayload r = .ok { r with state := .parsingOptionsFailed }) ∨
    ∃ os brk, r.payloadContainsOptions = true ∧ (∀ o ∈ os, o.IsData) ∧
      ffRequestParseOptions r node.buffer =
        (r.addOptions os brk, (encodeOptions os brk).length) ∧
      encodeOptions os brk <+: node.bytes ∧
      (((node.length.toNat ≤ (encodeOptions os brk).length ∨ brk = true) ∧
          ffRequestParseOptionsFromPayload r =
            .ok { r.addOptions os brk with state := .parsingOptionsFailed }) ∨
        ∃ hl : (encodeOptions os brk).length < node.length.toNat, brk = false ∧
          ffRequestParseOptionsFromPayload r = .ok { r.addOptions os brk with
            payload := [node.dropOptions _ hl]
            payloadLength := (node.dropOptions _ hl).length.toUInt64
            state := .parsedOptions }) := by
  by_cases hc : r.payloadContainsOptions = true
  · rcases ffRequestParseOptions_cases r node.buffer with hm | ⟨os, brk, _, hd, hpre, ho⟩
    · exact Or.inr (Or.inl ⟨hc, hm, ffRequestParseOptionsFromPayload_of_malformed r node hp hc hm⟩)
    · refine Or.inr (Or.inr ⟨os, brk, hc, hd, ho, hpre, ?_⟩)
      by_cases hr : node.length.toNat ≤ (encodeOptions os brk).length ∨ brk = true
      · exact Or.inl ⟨hr, ffRequestParseOptionsFromPayload_of_refused r node os brk hp hc ho hr⟩
      · rw [not_or, Nat.not_le, Bool.not_eq_true] at hr
        obtain ⟨hl, rfl⟩ := hr
        exact Or.inr ⟨hl, rfl, ffRequestParseOptionsFromPayload_of_taken r node os hp hc ho hl⟩
  · rw [Bool.not_eq_true] at hc
    exact Or.inl ⟨hc, ffRequestParseOptionsFromPayload_of_not_contains r node hp hc⟩

end Exits

/-- The options of a payload are parsed only once the payload is one node. -/
private theorem payload_of_parsed {r r' : Request}
    (h : ffRequestParseOptionsFromPayload r = .ok r') : ∃ node, r.payload = [node] := by
  unfold ffRequestParseOptionsFromPayload at h
  split at h
  · next node hp => exact ⟨node, hp⟩
  · cases h

/-- The stage sets the state, the options and the payload. -/
theorem ffRequestParseOptionsFromPayload_frame {r r' : Request}
    (h : ffRequestParseOptionsFromPayload r = .ok r') :
    r' = { r with
      state := r'.state
      options := r'.options
      payloadContainsOptions := r'.payloadContainsOptions
      payload := r'.payload
      payloadLength := r'.payloadLength } := by
  obtain ⟨node, hp⟩ := payload_of_parsed h
  rcases ffRequestParseOptionsFromPayload_cases r node hp with
    ⟨_, he⟩ | ⟨_, _, he⟩ | ⟨os, brk, _, _, _, _, ⟨_, he⟩ | ⟨_, _, he⟩⟩
  all_goals
    rw [he] at h
    rw [← Except.ok.inj h]
  all_goals rfl

/-- Parsing the options of a payload ends in one of two states. -/
theorem ffRequestParseOptionsFromPayload_state {r r' : Request}
    (h : ffRequestParseOptionsFromPayload r = .ok r') :
    r'.state = .parsedOptions ∨ r'.state = .parsingOptionsFailed := by
  obtain ⟨node, hp⟩ := payload_of_parsed h
  rcases ffRequestParseOptionsFromPayload_cases r node hp with
    ⟨_, he⟩ | ⟨_, _, he⟩ | ⟨os, brk, _, _, _, _, ⟨_, he⟩ | ⟨_, _, he⟩⟩
  all_goals
    rw [he] at h
    rw [← Except.ok.inj h]
  · exact Or.inl rfl
  · exact Or.inr rfl
  · exact Or.inr rfl
  · exact Or.inl rfl

/-- Parsing the options of a payload leaves a single node. -/
theorem ffRequestParseOptionsFromPayload_payload {r r' : Request}
    (h : ffRequestParseOptionsFromPayload r = .ok r') : ∃ node, r'.payload = [node] := by
  obtain ⟨node, hp⟩ := payload_of_parsed h
  rcases ffRequestParseOptionsFromPayload_cases r node hp with
    ⟨_, he⟩ | ⟨_, _, he⟩ | ⟨os, brk, _, _, _, _, ⟨_, he⟩ | ⟨_, _, he⟩⟩
  all_goals
    rw [he] at h
    rw [← Except.ok.inj h]
  · exact ⟨node, hp⟩
  · exact ⟨node, hp⟩
  · exact ⟨node, hp⟩
  · exact ⟨_, rfl⟩

/-- The assertions hold on a single node. -/
theorem ffRequestParseOptionsFromPayload_ne_assertion {r : Request} {node : PayloadNode}
    (hp : r.payload = [node]) : ffRequestParseOptionsFromPayload r ≠ .error .assertion := by
  intro h
  rw [fromPayload_single r node hp] at h
  split at h
  · cases h
  · cases h

end FfProxy
