import FfProxy.Request
import FfProxy.Wire

/-!
# The TLV option codec

The option parser of `src/parser.c:256–365` and the option writer of
`client/c/client.c:244–259`. The parser accepts exactly the written encodings of
options other than the two terminators, closed by one terminator of length zero,
as long as the request has a free slot for every option and for the terminator.
-/

namespace FfProxy
open Base

/-- What a successful option parse found: the bytes consumed, the options in order, and
whether the list was closed by BREAK. -/
structure ParsedOptions where
  consumed : Nat
  options : List OptionNode
  containsOptions : Bool
  deriving DecidableEq, Repr

/-- The TLV loop of `ff_request_parse_options`, `src/parser.c:265–326`. The recursion is on
the free slots `FF_REQUEST_MAX_OPTIONS - (current_options_size + options_i)`, so that
zero slots is the first check of an iteration. -/
def parseOptionsLoop (b : Buffer) : Nat → Nat → List OptionNode → Option ParsedOptions
  | 0, _, _ => none
  | slots + 1, i, options =>
    if b.size < i + optionHeaderSize then none
    else
      let type := b.mem.getD i 0
      let optionLength := ntohs (leValue (slice b.mem (i + 1) 2))
      let i := i + optionHeaderSize
      if type = OptionType.breakOption then
        if optionLength ≠ 0 then none else some ⟨i, options, true⟩
      else if type = OptionType.eol then
        if optionLength ≠ 0 then none else some ⟨i, options, false⟩
      else if h : b.size < i + optionLength then none
      else
        let node : OptionNode := {
          type := type
          length := UInt16.ofNat optionLength
          value := slice b.mem i optionLength
          length_eq := by
            have hb := b.size_le
            rw [length_slice _ _ _ (by omega), UInt16.toNat_ofNat', Nat.mod_eq_of_lt (ntohs_lt _)] }
        parseOptionsLoop b slots (i + optionLength) (options ++ [node])

/-- `ff_request_parse_options`, `src/parser.c:256–365`: the request and the bytes consumed,
0 on failure. -/
def ffRequestParseOptions (r : Request) (b : Buffer) : Request × Nat :=
  match parseOptionsLoop b (ffRequestMaxOptions - r.optionsLength) 0 [] with
  | none => (r, 0)
  | some parsed =>
    ({ r with
        payloadContainsOptions := parsed.containsOptions
        options := r.options ++ parsed.options }, parsed.consumed)

/-- `ff_client_write_options`, `client/c/client.c:244–259`: the bytes written. -/
def ffClientWriteOptions : List OptionNode → List UInt8
  | [] => []
  | o :: rest =>
    o.type :: (leBytes 2 (ntohs o.length.toNat) ++ (o.value ++ ffClientWriteOptions rest))

/-- The option that closes a list: BREAK when options follow in the payload, else EOL. -/
def terminator (containsOptions : Bool) : OptionNode :=
  ⟨if containsOptions then OptionType.breakOption else OptionType.eol, 0, [], rfl⟩

/-- An option that carries data, so neither terminator. -/
def OptionNode.IsData (o : OptionNode) : Prop :=
  o.type ≠ OptionType.eol ∧ o.type ≠ OptionType.breakOption

instance (o : OptionNode) : Decidable o.IsData := inferInstanceAs (Decidable (_ ∧ _))

/-- The bytes of a closed option list. -/
def encodeOptions (options : List OptionNode) (containsOptions : Bool) : List UInt8 :=
  ffClientWriteOptions (options ++ [terminator containsOptions])

/-! ### The written bytes -/

/-- A terminator is its type byte and a zero length. -/
theorem encodeOptions_nil (brk : Bool) :
    encodeOptions [] brk = [(terminator brk).type, 0, 0] := by
  cases brk <;> decide

/-- An option list is written as its first option followed by the rest. -/
theorem encodeOptions_cons (o : OptionNode) (os : List OptionNode) (brk : Bool) :
    encodeOptions (o :: os) brk =
      o.type :: (beBytes 2 o.length.toNat ++ (o.value ++ encodeOptions os brk)) := by
  rw [encodeOptions, List.cons_append, ffClientWriteOptions, leBytes_ntohs]
  rfl

/-- Every closed option list has at least the terminator's bytes. -/
theorem optionHeaderSize_le_encodeOptions (os : List OptionNode) (brk : Bool) :
    optionHeaderSize ≤ (encodeOptions os brk).length := by
  cases os with
  | nil => rw [encodeOptions_nil]; exact Nat.le_refl _
  | cons o os => rw [encodeOptions_cons]; simp [optionHeaderSize]

/-- What it takes for a closed option list to start a block whose first three bytes are known. -/
private theorem encodeOptions_prefix_iff (os : List OptionNode) (brk : Bool) (t x y : UInt8)
    (rest : List UInt8) :
    encodeOptions os brk <+: t :: x :: y :: rest ↔
      (os = [] ∧ (terminator brk).type = t ∧ beValue [x, y] = 0) ∨
      ∃ o os', os = o :: os' ∧ o.type = t ∧ o.length.toNat = beValue [x, y] ∧
        o.value ++ encodeOptions os' brk <+: rest := by
  cases os with
  | nil =>
    rw [encodeOptions_nil]
    have hz : beValue [x, y] = 0 ↔ (0 : UInt8) = x ∧ (0 : UInt8) = y := by
      have hx : x.toNat = 0 ↔ (0 : UInt8) = x := by
        rw [eq_comm (a := (0 : UInt8)), ← UInt8.toNat_inj]; rfl
      have hy : y.toNat = 0 ↔ (0 : UInt8) = y := by
        rw [eq_comm (a := (0 : UInt8)), ← UInt8.toNat_inj]; rfl
      rw [← hx, ← hy]
      simp only [beValue, List.reverse_cons, List.reverse_nil, List.nil_append, List.cons_append,
        leValue]
      omega
    simp [hz]
  | cons o os =>
    have hb : beBytes 2 o.length.toNat = [x, y] ↔ o.length.toNat = beValue [x, y] := by
      constructor
      · intro h
        rw [← h, beValue_beBytes_of_lt 2 _ o.length.toNat_lt]
      · intro h
        rw [h]
        exact beBytes_beValue [x, y]
    obtain ⟨u, v, huv⟩ := List.length_eq_two.mp (length_beBytes 2 o.length.toNat)
    rw [encodeOptions_cons, huv]
    rw [huv] at hb
    simp only [List.cons_append, List.nil_append, List.cons_prefix_cons]
    constructor
    · rintro ⟨ht, hu, hv, hp⟩
      exact Or.inr ⟨o, os, rfl, ht, hb.mp (by rw [hu, hv]), hp⟩
    · rintro (⟨h, _⟩ | ⟨o', os', h, ht, hl, hp⟩)
      · cases h
      · obtain ⟨rfl, rfl⟩ := List.cons.inj h
        obtain ⟨hu, hv⟩ : u = x ∧ v = y := by simpa using hb.mpr hl
        exact ⟨ht, hu, hv, hp⟩

/-! ### What the parser accepts -/

private theorem buffer_header (b : Buffer) (i : Nat) (h : i + optionHeaderSize ≤ b.size) :
    ∃ x y rest, b.bytes.drop i = b.mem.getD i 0 :: x :: y :: rest ∧
      ntohs (leValue (slice b.mem (i + 1) 2)) = beValue [x, y] ∧
      rest = b.bytes.drop (i + optionHeaderSize) := by
  unfold optionHeaderSize at h ⊢
  have hl : (b.bytes.drop i).length = b.size - i := by rw [List.length_drop, b.length_bytes]
  match hd : b.bytes.drop i, hl with
  | [], hl => simp at hl; omega
  | [_], hl => simp at hl; omega
  | [_, _], hl => simp at hl; omega
  | t :: x :: y :: rest, _ =>
    refine ⟨x, y, rest, ?_, ?_, ?_⟩
    · have ht : b.mem[i]? = some t := by
        have h0 : (b.bytes.drop i)[0]? = some t := by rw [hd]; rfl
        rw [List.getElem?_drop, Nat.add_zero, Buffer.bytes,
          List.getElem?_take_of_lt (by omega)] at h0
        exact h0
      rw [List.getD_eq_getElem?_getD, ht, Option.getD_some]
    · have hs : slice b.mem (i + 1) 2 = [x, y] := by
        rw [b.slice_mem _ _ (by omega), ← List.drop_drop, hd]
        rfl
      rw [hs, ntohs_leValue _ rfl]
    · rw [← List.drop_drop, hd]
      rfl

private theorem terminator_type_inj {a b : Bool}
    (h : (terminator a).type = (terminator b).type) : a = b := by
  revert h
  revert a b
  decide

private theorem not_isData_terminator {o : OptionNode} {brk : Bool}
    (h : o.type = (terminator brk).type) : ¬ o.IsData := by
  rintro ⟨h0, h7⟩
  cases brk
  · exact h0 h
  · exact h7 h

/-- No closed option list starts where the buffer has no room for an option header. -/
private theorem not_encoded_of_no_header {b : Buffer} {i : Nat} {os : List OptionNode} {brk : Bool}
    (hs : b.size < i + optionHeaderSize) : ¬ encodeOptions os brk <+: b.bytes.drop i := by
  intro hp
  have hle := hp.length_le
  have hleast := optionHeaderSize_le_encodeOptions os brk
  rw [List.length_drop, b.length_bytes] at hle
  unfold optionHeaderSize at hs hleast
  omega

/-- No closed option list starts with a data option whose value does not fit. -/
private theorem not_encoded_of_no_value {t x y : UInt8} {rest : List UInt8}
    {os : List OptionNode} {brk : Bool} (heol : t ≠ OptionType.eol)
    (hbrk : t ≠ OptionType.breakOption) (hlong : rest.length < beValue [x, y]) :
    ¬ encodeOptions os brk <+: t :: x :: y :: rest := by
  intro hp
  rcases (encodeOptions_prefix_iff _ _ _ _ _ _).mp hp with
    ⟨_, ht, _⟩ | ⟨o, os', _, _, hol, hvalue⟩
  · cases brk
    · exact heol ht.symm
    · exact hbrk ht.symm
  · have hle := hvalue.length_le
    rw [List.length_append, o.length_eq, hol] at hle
    omega

-- The two terminator branches of the loop differ in the type byte only.
private theorem closed_iff (slots i : Nat) (acc : List OptionNode) (parsed : ParsedOptions)
    (t x y : UInt8) (rest : List UInt8) (brk : Bool) (ht : t = (terminator brk).type) :
    (if beValue [x, y] ≠ 0 then none else some (⟨i + optionHeaderSize, acc, brk⟩ : ParsedOptions))
        = some parsed ↔
      ∃ os, os.length < slots + 1 ∧ (∀ o ∈ os, o.IsData) ∧
        encodeOptions os parsed.containsOptions <+: t :: x :: y :: rest ∧
        parsed.options = acc ++ os ∧
        parsed.consumed = i + (encodeOptions os parsed.containsOptions).length := by
  simp only [encodeOptions_prefix_iff]
  constructor
  · intro h
    split at h
    · simp at h
    · next hz =>
      rw [← Option.some.inj h]
      refine ⟨[], by simp, by simp, Or.inl ⟨rfl, ht.symm, by simpa using hz⟩, by simp, ?_⟩
      rw [encodeOptions_nil]
      rfl
  · rintro ⟨os, _, hdata, hcase, hopt, hcons⟩
    rcases hcase with ⟨rfl, htt, hz⟩ | ⟨o, os', rfl, hto, _, _⟩
    · have hb : parsed.containsOptions = brk := terminator_type_inj (htt.trans ht)
      rw [if_neg (by simp [hz])]
      rw [encodeOptions_nil] at hcons
      rcases parsed with ⟨n, opts, c⟩
      simp only [List.append_nil] at hopt hcons hb
      rw [hopt, hb, hcons]
      rfl
    · exact absurd (hdata o (by simp)) (not_isData_terminator (hto.trans ht))

-- A data option in front of a block is the node that the loop builds from that block.
private theorem option_iff (slots i : Nat) (acc : List OptionNode) (parsed : ParsedOptions)
    (node : OptionNode) (x y : UInt8) (rest : List UInt8) (hd : node.IsData)
    (hl : node.length.toNat = beValue [x, y]) (hv : node.value = rest.take node.length.toNat) :
    (∃ os, os.length < slots ∧ (∀ o ∈ os, o.IsData) ∧
        encodeOptions os parsed.containsOptions <+: rest.drop node.length.toNat ∧
        parsed.options = acc ++ [node] ++ os ∧
        parsed.consumed = i + optionHeaderSize + node.length.toNat +
          (encodeOptions os parsed.containsOptions).length) ↔
      ∃ os, os.length < slots + 1 ∧ (∀ o ∈ os, o.IsData) ∧
        encodeOptions os parsed.containsOptions <+: node.type :: x :: y :: rest ∧
        parsed.options = acc ++ os ∧
        parsed.consumed = i + (encodeOptions os parsed.containsOptions).length := by
  have hsize (os : List OptionNode) (c : Bool) :
      i + optionHeaderSize + node.length.toNat + (encodeOptions os c).length =
        i + (encodeOptions (node :: os) c).length := by
    rw [encodeOptions_cons]
    simp only [List.length_cons, List.length_append, length_beBytes, node.length_eq,
      optionHeaderSize]
    omega
  constructor
  · rintro ⟨os, hlt, hdata, hp, hopt, hcons⟩
    refine ⟨node :: os, by simpa using hlt, ?_, ?_, by simpa using hopt, by rw [← hsize, hcons]⟩
    · intro o ho
      rcases List.mem_cons.mp ho with rfl | ho
      · exact hd
      · exact hdata o ho
    · refine (encodeOptions_prefix_iff _ _ _ _ _ _).mpr (Or.inr ⟨node, os, rfl, rfl, hl, ?_⟩)
      rw [← List.take_append_drop node.length.toNat rest, ← hv]
      exact (List.prefix_append_right_inj _).mpr hp
  · rintro ⟨os, hlt, hdata, hp, hopt, hcons⟩
    rcases (encodeOptions_prefix_iff _ _ _ _ _ _).mp hp with
      ⟨rfl, ht, _⟩ | ⟨o, os', rfl, ht, hol, hp'⟩
    · exact absurd hd (not_isData_terminator ht.symm)
    · have hlen : o.length.toNat = node.length.toNat := hol.trans hl.symm
      have hval : o.value = node.value := by
        obtain ⟨tail, htail⟩ := hp'
        rw [hv, ← htail, ← hlen, ← o.length_eq, List.append_assoc, List.take_left]
      have ho : o = node := OptionNode.ext ht (UInt16.toNat_inj.mp hlen) hval
      subst ho
      refine ⟨os', by simpa using hlt, fun a ha ↦ hdata a (by simp [ha]), ?_, by simpa using hopt,
        by rw [hsize, hcons]⟩
      rw [← List.take_append_drop o.length.toNat rest, ← hv] at hp'
      exact (List.prefix_append_right_inj _).mp hp'

/-- The loop accepts exactly the closed encodings that fit the free slots, appends their
options and stops right after them. -/
theorem parseOptionsLoop_eq_some_iff (b : Buffer) (slots i : Nat) (acc : List OptionNode)
    (parsed : ParsedOptions) :
    parseOptionsLoop b slots i acc = some parsed ↔
      ∃ os, os.length < slots ∧ (∀ o ∈ os, o.IsData) ∧
        encodeOptions os parsed.containsOptions <+: b.bytes.drop i ∧
        parsed.options = acc ++ os ∧
        parsed.consumed = i + (encodeOptions os parsed.containsOptions).length := by
  induction slots generalizing i acc with
  | zero => simp [parseOptionsLoop]
  | succ slots ih =>
    rw [parseOptionsLoop]
    by_cases hs : b.size < i + optionHeaderSize
    · rw [if_pos hs]
      refine iff_of_false (by simp) ?_
      rintro ⟨os, _, _, hp, _⟩
      exact not_encoded_of_no_header hs hp
    · rw [if_neg hs]
      obtain ⟨x, y, rest, hd, hlen, hrest⟩ := buffer_header b i (Nat.not_lt.mp hs)
      generalize b.mem.getD i 0 = t at hd ⊢
      by_cases hbrk : t = OptionType.breakOption
      · simp only [if_pos hbrk, hlen, hd]
        exact closed_iff slots i acc parsed t x y rest true hbrk
      · by_cases heol : t = OptionType.eol
        · simp only [if_neg hbrk, if_pos heol, hlen, hd]
          exact closed_iff slots i acc parsed t x y rest false heol
        · simp only [if_neg hbrk, if_neg heol]
          have hrl : rest.length = b.size - (i + optionHeaderSize) := by
            rw [hrest, List.length_drop, b.length_bytes]
          split
          · next hlt =>
            refine iff_of_false (by simp) ?_
            rintro ⟨os, _, _, hp, _⟩
            rw [hd] at hp
            exact not_encoded_of_no_value heol hbrk (by omega) hp
          · next hge =>
            rw [ih]
            have hlt := ntohs_lt (leValue (slice b.mem (i + 1) 2))
            have h16 : (UInt16.ofNat (ntohs (leValue (slice b.mem (i + 1) 2)))).toNat =
                ntohs (leValue (slice b.mem (i + 1) 2)) := by
              rw [UInt16.toNat_ofNat', Nat.mod_eq_of_lt hlt]
            have hb := b.size_le
            have key := option_iff slots i acc parsed
              ⟨t, UInt16.ofNat (ntohs (leValue (slice b.mem (i + 1) 2))),
                slice b.mem (i + optionHeaderSize) (ntohs (leValue (slice b.mem (i + 1) 2))),
                by rw [length_slice _ _ _ (by omega), h16]⟩
              x y rest ⟨heol, hbrk⟩ (h16.trans hlen) (by
                simp only [h16, hrest]
                exact b.slice_mem _ _ (by omega))
            simp only [h16] at key
            rw [hd, ← key, hrest, List.drop_drop]

/-- The request with parsed options added, the effect of `src/parser.c:294,306,333–347`. -/
def Request.addOptions (r : Request) (os : List OptionNode) (brk : Bool) : Request :=
  { r with options := r.options ++ os, payloadContainsOptions := brk }

/-- A closed list that fits the free slots is taken in full. -/
theorem ffRequestParseOptions_of_encoded (r : Request) (b : Buffer) (os : List OptionNode)
    (brk : Bool) (hlt : r.optionsLength + os.length < ffRequestMaxOptions)
    (hd : ∀ o ∈ os, o.IsData) (hp : encodeOptions os brk <+: b.bytes) :
    ffRequestParseOptions r b = (r.addOptions os brk, (encodeOptions os brk).length) := by
  have h := (parseOptionsLoop_eq_some_iff b (ffRequestMaxOptions - r.optionsLength) 0 []
    ⟨(encodeOptions os brk).length, os, brk⟩).mpr
      ⟨os, by omega, hd, by simpa using hp, rfl, by simp⟩
  rw [ffRequestParseOptions, h]
  rfl

/-- Parsing either changes nothing and consumes nothing, or takes a closed list. -/
theorem ffRequestParseOptions_cases (r : Request) (b : Buffer) :
    ffRequestParseOptions r b = (r, 0) ∨
      ∃ os brk, r.optionsLength + os.length < ffRequestMaxOptions ∧ (∀ o ∈ os, o.IsData) ∧
        encodeOptions os brk <+: b.bytes ∧
        ffRequestParseOptions r b = (r.addOptions os brk, (encodeOptions os brk).length) := by
  cases h : parseOptionsLoop b (ffRequestMaxOptions - r.optionsLength) 0 [] with
  | none => exact Or.inl (by rw [ffRequestParseOptions, h])
  | some parsed =>
    obtain ⟨os, hlt, hd, hp, _, _⟩ := (parseOptionsLoop_eq_some_iff _ _ _ _ _).mp h
    rw [List.drop_zero] at hp
    exact Or.inr ⟨os, parsed.containsOptions, by omega, hd, hp,
      ffRequestParseOptions_of_encoded r b os _ (by omega) hd hp⟩

/-- A block starts with at most one closed list. -/
theorem encodeOptions_unique {b : Buffer} {os os' : List OptionNode} {brk brk' : Bool}
    (hd : ∀ o ∈ os, o.IsData) (hp : encodeOptions os brk <+: b.bytes)
    (hd' : ∀ o ∈ os', o.IsData) (hp' : encodeOptions os' brk' <+: b.bytes) :
    os = os' ∧ brk = brk' := by
  -- With slots for both lists the loop would take either.
  have h := (parseOptionsLoop_eq_some_iff b (os.length + os'.length + 1) 0 []
    ⟨(encodeOptions os brk).length, os, brk⟩).mpr
      ⟨os, by omega, hd, by simpa using hp, rfl, by simp⟩
  have h' := (parseOptionsLoop_eq_some_iff b (os.length + os'.length + 1) 0 []
    ⟨(encodeOptions os' brk').length, os', brk'⟩).mpr
      ⟨os', by omega, hd', by simpa using hp', rfl, by simp⟩
  have hparsed := Option.some.inj (h.symm.trans h')
  exact ⟨congrArg ParsedOptions.options hparsed, congrArg ParsedOptions.containsOptions hparsed⟩

/-- A closed list that is too long for the free slots is refused. -/
theorem ffRequestParseOptions_of_full (r : Request) {b : Buffer} {os : List OptionNode}
    {brk : Bool} (hmany : ffRequestMaxOptions ≤ r.optionsLength + os.length)
    (hd : ∀ o ∈ os, o.IsData) (hp : encodeOptions os brk <+: b.bytes) :
    ffRequestParseOptions r b = (r, 0) := by
  rcases ffRequestParseOptions_cases r b with h | ⟨os', brk', hlt, hd', hp', _⟩
  · exact h
  · rw [(encodeOptions_unique hd hp hd' hp').1] at hmany
    omega

/-! ### The grammar of the parser -/

/-- The first `n` bytes of the buffer are the written form of `os` and one terminator, and the
request has a free slot for every option and for the terminator. -/
structure StartsWithOptions (r : Request) (b : Buffer) (n : Nat) (os : List OptionNode)
    (brk : Bool) : Prop where
  data : ∀ o ∈ os, o.IsData
  room : r.optionsLength + os.length ≤ 19
  inside : n ≤ b.size
  written : b.bytes.take n = ffClientWriteOptions (os ++ [terminator brk])

/-- A front of the buffer is a closed option list exactly when that list is a prefix of `n`
bytes. -/
private theorem startsWithOptions_iff (r : Request) (b : Buffer) (n : Nat) (os : List OptionNode)
    (brk : Bool) :
    StartsWithOptions r b n os brk ↔
      (∀ o ∈ os, o.IsData) ∧ r.optionsLength + os.length < ffRequestMaxOptions ∧
        encodeOptions os brk <+: b.bytes ∧ (encodeOptions os brk).length = n := by
  constructor
  · intro h
    have hlen : (encodeOptions os brk).length = n := by
      rw [encodeOptions, ← h.written, List.length_take, b.length_bytes, Nat.min_eq_left h.inside]
    refine ⟨h.data, Nat.lt_succ_of_le h.room, ?_, hlen⟩
    rw [encodeOptions, ← h.written]
    exact List.take_prefix n b.bytes
  · rintro ⟨hd, hroom, hp, hlen⟩
    refine ⟨hd, Nat.le_of_lt_succ hroom, ?_, ?_⟩
    · rw [← hlen, ← b.length_bytes]
      exact hp.length_le
    · rw [← hlen]
      exact (List.prefix_iff_eq_take.mp hp).symm

/-- A buffer that starts with a closed list is parsed to it. -/
private theorem ffRequestParseOptions_of_starts {r : Request} {b : Buffer} {n : Nat}
    {os : List OptionNode} {brk : Bool} (h : StartsWithOptions r b n os brk) :
    ffRequestParseOptions r b = (r.addOptions os brk, n) := by
  obtain ⟨hd, hroom, hp, hlen⟩ := (startsWithOptions_iff r b n os brk).mp h
  rw [ffRequestParseOptions_of_encoded r b os brk hroom hd hp, hlen]

/-- A parse that consumes bytes found a closed list. -/
private theorem starts_of_consumed {r : Request} {b : Buffer}
    (h : 0 < (ffRequestParseOptions r b).2) :
    ∃ os brk, StartsWithOptions r b (ffRequestParseOptions r b).2 os brk := by
  rcases ffRequestParseOptions_cases r b with hnone | ⟨os, brk, hroom, hd, hp, hsome⟩
  · rw [hnone] at h
    exact absurd h (Nat.lt_irrefl 0)
  · rw [hsome]
    exact ⟨os, brk, (startsWithOptions_iff _ _ _ _ _).mpr ⟨hd, hroom, hp, rfl⟩⟩

/-- The grammar of the option parser and its inverse. It consumes `n > 0` bytes exactly when
the buffer starts with a closed list of `n` bytes that fits the free slots; it then appends
these options and notes the terminator, and the options it appended are written back to the
bytes it consumed. On any other buffer it consumes nothing and changes nothing. -/
theorem ffRequestParseOptions_grammar (r : Request) (b : Buffer) :
    (∀ n, 0 < n →
      ((ffRequestParseOptions r b).2 = n ↔ ∃ os brk, StartsWithOptions r b n os brk)) ∧
    (∀ n os brk, StartsWithOptions r b n os brk →
      (ffRequestParseOptions r b).1 =
          { r with options := r.options ++ os, payloadContainsOptions := brk } ∧
        (ffRequestParseOptions r b).1.optionsLength = r.optionsLength + os.length) ∧
    ((∀ n os brk, ¬ StartsWithOptions r b n os brk) → ffRequestParseOptions r b = (r, 0)) ∧
    (0 < (ffRequestParseOptions r b).2 →
      ffClientWriteOptions ((ffRequestParseOptions r b).1.options.drop r.optionsLength ++
          [terminator (ffRequestParseOptions r b).1.payloadContainsOptions]) =
        b.bytes.take (ffRequestParseOptions r b).2) := by
  refine ⟨?_, ?_, ?_, ?_⟩
  · intro n hn
    constructor
    · rintro rfl
      exact starts_of_consumed hn
    · rintro ⟨os, brk, h⟩
      rw [ffRequestParseOptions_of_starts h]
  · intro n os brk h
    rw [ffRequestParseOptions_of_starts h]
    exact ⟨rfl, List.length_append⟩
  · intro hnone
    rcases ffRequestParseOptions_cases r b with h | ⟨os, brk, hroom, hd, hp, _⟩
    · exact h
    · exact absurd ((startsWithOptions_iff _ _ _ _ _).mpr ⟨hd, hroom, hp, rfl⟩) (hnone _ os brk)
  · intro hpos
    obtain ⟨os, brk, h⟩ := starts_of_consumed hpos
    rw [ffRequestParseOptions_of_starts h] at h ⊢
    rw [h.written]
    simp only [Request.addOptions, Request.optionsLength, List.drop_left]

/-- An HTTPS option closed by BREAK, with payload bytes behind it. -/
theorem ffRequestParseOptions_grammar_https :
    StartsWithOptions ffRequestAlloc (Buffer.ofBytes [4, 0, 1, 1, 7, 0, 0, 72]) 7
        [OptionNode.ofByte OptionType.https 1] true ∧
      (ffRequestParseOptions ffRequestAlloc (Buffer.ofBytes [4, 0, 1, 1, 7, 0, 0, 72])).2 = 7 := by
  have h : StartsWithOptions ffRequestAlloc (Buffer.ofBytes [4, 0, 1, 1, 7, 0, 0, 72]) 7
      [OptionNode.ofByte OptionType.https 1] true := ⟨by decide, by decide, by decide, by decide⟩
  exact ⟨h, ((ffRequestParseOptions_grammar _ _).1 7 (by decide)).mpr ⟨_, _, h⟩⟩

end FfProxy
