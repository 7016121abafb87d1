import FfProxy.Base.Heap
import FfProxy.Base.Segment
import FfProxy.Parser.PayloadOptions

/-!
# Ownership of the payload nodes

`ff_request_parse_options_from_payload` once more, with each payload node a cell that is live
or released, and the loop of `ff_request_free` over what the request then owns. Where a
node is released while the request still refers to it, that loop reads released memory.
-/

namespace FfProxy
open Base

/-- A payload node in memory: the node and its link, `src/request.h:67–73`. -/
structure PayloadCell where
  node : PayloadNode
  next : Option Nat
  deriving DecidableEq, Repr

/-- The payload nodes in memory. -/
abbrev PayloadHeap := Heap PayloadCell

/-- A request whose payload nodes are in memory, reached through the pointer `payload`. The
other fields are those of `fields`, whose own payload is not looked at. -/
structure RequestObject where
  fields : Request
  payload : Option Nat
  deriving DecidableEq, Repr

namespace PayloadHeap

/-- The link of a node. -/
def nextOf (mem : PayloadHeap) (a : Nat) : Option Nat := (mem.read a).bind PayloadCell.next

/-- `ff_request_payload_node_free`, `src/request.c:61–69`. -/
def ffRequestPayloadNodeFree (mem : PayloadHeap) : Option Nat → Except Fault PayloadHeap
  | none => .ok mem
  | some a =>
    match mem.read a with
    | none => .error .useAfterFree
    | some _ => .ok (mem.free a)

/-- The payload loop of `ff_request_free`, `src/request.c:92–100`. -/
def ffRequestFree (mem : PayloadHeap) : Option Nat → Except Fault PayloadHeap
  | none => .ok mem
  | some a =>
    match _h : mem.read a with
    | none => .error .useAfterFree
    | some cell => ffRequestFree (mem.free a) cell.next
termination_by mem.liveCount
decreasing_by exact Heap.liveCount_free_lt _h

/-- The cleanup label, `src/parser.c:421–422`: the node in the variable `payload` is released. -/
def cleanup (mem : PayloadHeap) (payload : Option Nat) (o : RequestObject) :
    Except Fault (PayloadHeap × RequestObject) :=
  match ffRequestPayloadNodeFree mem payload with
  | .error fault => .error fault
  | .ok mem => .ok (mem, o)

/-- `ff_request_parse_options_from_payload`, `src/parser.c:367–423`. -/
def ffRequestParseOptionsFromPayload (mem : PayloadHeap) (o : RequestObject) :
    Except Fault (PayloadHeap × RequestObject) :=
  match o.payload with
  | none => .error .assertion
  | some a =>
    match mem.read a with
    | none => .error .useAfterFree
    | some cell =>
      if cell.next.isSome then .error .assertion
      else if o.fields.payloadContainsOptions then
        let (fields, optionsLength) :=
          ffRequestParseOptions { o.fields with state := .parsingOptions } cell.node.buffer
        if optionsLength = 0 then
          -- The only exit that does not pass the cleanup label.
          .ok (mem, { o with fields := { fields with state := .parsingOptionsFailed } })
        else if h : cell.node.length.toNat ≤ optionsLength then
          cleanup mem (some a) { o with fields := { fields with state := .parsingOptionsFailed } }
        else if fields.payloadContainsOptions then
          cleanup mem (some a) { o with fields := { fields with state := .parsingOptionsFailed } }
        else
          let node := cell.node.dropOptions optionsLength (Nat.not_le.mp h)
          cleanup (mem.alloc ⟨node, none⟩) (some a) {
            fields := { fields with
              payloadLength := node.length.toUInt64
              state := .parsedOptions }
            payload := some mem.next }
      else cleanup mem none { o with fields := { o.fields with state := .parsedOptions } }

/-- Releasing a chain of live nodes releases each of them once, and nothing else. -/
theorem ffRequestFree_segment {mem : PayloadHeap} {as : List Nat}
    (hs : Segment (nextOf mem) as none) (hn : as.Nodup) (hl : ∀ a ∈ as, (mem.read a).isSome) :
    ∃ mem', ffRequestFree mem as.head? = .ok mem' ∧
      ∀ b, mem'.read b = if b ∈ as then none else mem.read b := by
  induction as generalizing mem with
  | nil => exact ⟨mem, by simp [ffRequestFree], by simp⟩
  | cons a as ih =>
    obtain ⟨cell, hcell⟩ := Option.isSome_iff_exists.mp (hl a (by simp))
    obtain ⟨hna, hn⟩ := List.nodup_cons.mp hn
    have hne : ∀ b ∈ as, b ≠ a := fun b hb he ↦ hna (he ▸ hb)
    have hread : ∀ b ∈ as, (mem.free a).read b = mem.read b := fun b hb ↦ by
      rw [Heap.read_free, if_neg (hne b hb)]
    have hnext : cell.next = as.head? := by
      have := hs.1
      rwa [nextOf, hcell, Option.or_none] at this
    have hs' : Segment (nextOf (mem.free a)) as none :=
      hs.2.congr fun b hb ↦ by rw [nextOf, nextOf, hread b hb]
    obtain ⟨mem', hfree, hmem⟩ := ih hs' hn fun b hb ↦ by
      rw [hread b hb]
      exact hl b (by simp [hb])
    refine ⟨mem', ?_, fun b ↦ ?_⟩
    · rw [List.head?_cons, ffRequestFree]
      split
      · next h => rw [hcell] at h; cases h
      · next c h =>
        obtain rfl : cell = c := Option.some.inj (hcell.symm.trans h)
        rw [hnext, hfree]
    · rw [hmem, Heap.read_free]
      by_cases hb : b = a <;> simp [hb]

/-! ### The exits -/

/-- The payload is announced to start with options and does start with a closed list that fits
the free slots; but the list leaves nothing of the payload, or a BREAK closes it. -/
def TakenThenRefused (r : Request) (node : PayloadNode) : Prop :=
  r.payloadContainsOptions = true ∧ ∃ os brk, r.optionsLength + os.length < ffRequestMaxOptions ∧
    (∀ o ∈ os, o.IsData) ∧ encodeOptions os brk <+: node.bytes ∧
    (node.length.toNat ≤ (encodeOptions os brk).length ∨ brk = true)

section Exits

variable {mem : PayloadHeap} {o : RequestObject} {a : Nat} {cell : PayloadCell}

private theorem fromPayload_live (hp : o.payload = some a) (hr : mem.read a = some cell)
    (hn : cell.next = none) :
    ffRequestParseOptionsFromPayload mem o =
      if o.fields.payloadContainsOptions then
        let (fields, optionsLength) :=
          ffRequestParseOptions { o.fields with state := .parsingOptions } cell.node.buffer
        if optionsLength = 0 then
          .ok (mem, { o with fields := { fields with state := .parsingOptionsFailed } })
        else if h : cell.node.length.toNat ≤ optionsLength then
          .ok (mem.free a, { o with fields := { fields with state := .parsingOptionsFailed } })
        else if fields.payloadContainsOptions then
          .ok (mem.free a, { o with fields := { fields with state := .parsingOptionsFailed } })
        else
          let node := cell.node.dropOptions optionsLength (Nat.not_le.mp h)
          .ok ((mem.alloc ⟨node, none⟩).free a, {
            fields := { fields with
              payloadLength := node.length.toUInt64
              state := .parsedOptions }
            payload := some mem.next })
      else .ok (mem, { o with fields := { o.fields with state := .parsedOptions } }) := by
  have hnew : ∀ new, (mem.alloc new).read a = some cell := fun new ↦ by
    rw [Heap.read_alloc, if_neg (Heap.ne_next_of_read hr), hr]
  simp only [ffRequestParseOptionsFromPayload, hp, hr, hn, Option.isSome_none, Bool.false_eq_true,
    ↓reduceIte, cleanup, ffRequestPayloadNodeFree, hnew]

/-- A refused payload starts with no list that fits. -/
private theorem not_encoded_of_malformed {r : Request} {b : Buffer}
    (h : ffRequestParseOptions r b = (r, 0)) {os : List OptionNode} {brk : Bool}
    (hlt : r.optionsLength + os.length < ffRequestMaxOptions) (hd : ∀ o ∈ os, o.IsData) :
    ¬ encodeOptions os brk <+: b.bytes := by
  intro hp
  have h' := ffRequestParseOptions_of_encoded r b os brk hlt hd hp
  have hpos := optionHeaderSize_le_encodeOptions os brk
  rw [h] at h'
  have h0 : 0 = (encodeOptions os brk).length := (Prod.mk.inj h').2
  unfold optionHeaderSize at hpos
  omega

private theorem not_takenThenRefused_of_taken {r : Request} {node : PayloadNode}
    {os : List OptionNode} (hd : ∀ o ∈ os, o.IsData)
    (hp : encodeOptions os false <+: node.buffer.bytes)
    (hl : (encodeOptions os false).length < node.length.toNat) : ¬ TakenThenRefused r node := by
  rintro ⟨_, os', brk', _, hd', hp', hr⟩
  obtain ⟨rfl, rfl⟩ := encodeOptions_unique hd hp hd' hp'
  rcases hr with hr | hr
  · omega
  · cases hr

/-- What the stage does to memory and to the request, exit by exit. The fields of the request
are in each case those of the function on plain values. -/
theorem ffRequestParseOptionsFromPayload_exits (hp : o.payload = some a)
    (hr : mem.read a = some cell) (hn : cell.next = none) :
    (¬ TakenThenRefused o.fields cell.node ∧ ∃ fields : Request,
      ffRequestParseOptionsFromPayload mem o = .ok (mem, ⟨fields, some a⟩) ∧
      FfProxy.ffRequestParseOptionsFromPayload { o.fields with payload := [cell.node] } =
        .ok { fields with payload := [cell.node] }) ∨
    (¬ TakenThenRefused o.fields cell.node ∧ ∃ (fields : Request) (node : PayloadNode),
      ffRequestParseOptionsFromPayload mem o =
        .ok ((mem.alloc ⟨node, none⟩).free a, ⟨fields, some mem.next⟩) ∧
      FfProxy.ffRequestParseOptionsFromPayload { o.fields with payload := [cell.node] } =
        .ok { fields with payload := [node] }) ∨
    (TakenThenRefused o.fields cell.node ∧ ∃ fields : Request,
      ffRequestParseOptionsFromPayload mem o = .ok (mem.free a, ⟨fields, some a⟩) ∧
      FfProxy.ffRequestParseOptionsFromPayload { o.fields with payload := [cell.node] } =
        .ok { fields with payload := [cell.node] }) := by
  rw [fromPayload_live hp hr hn, hp]
  let r : Request := { o.fields with payload := [cell.node] }
  let r' : Request := { o.fields with state := .parsingOptions }
  by_cases hc : o.fields.payloadContainsOptions = true
  · rw [if_pos hc]
    rcases ffRequestParseOptions_cases r' cell.node.buffer with hm | ⟨os, brk, hlt, hd, hpre, ho⟩
    · have hm' : ffRequestParseOptions r cell.node.buffer = (r, 0) := by
        rcases ffRequestParseOptions_cases r cell.node.buffer with h | ⟨os, brk, hlt, hd, hpre, _⟩
        · exact h
        · exact absurd hpre (not_encoded_of_malformed hm hlt hd)
      refine Or.inl ⟨?_, { r' with state := .parsingOptionsFailed }, ?_,
        ffRequestParseOptionsFromPayload_of_malformed r cell.node rfl hc hm'⟩
      · rintro ⟨_, os, brk, hlt, hd, hpre, _⟩
        exact not_encoded_of_malformed hm hlt hd hpre
      · simp only [hm, ↓reduceIte, r']
    · have hv := ffRequestParseOptions_of_encoded r cell.node.buffer os brk hlt hd hpre
      have hpos := optionHeaderSize_le_encodeOptions os brk
      have h0 : ¬ (encodeOptions os brk).length = 0 := by
        unfold optionHeaderSize at hpos
        omega
      by_cases hrf : cell.node.length.toNat ≤ (encodeOptions os brk).length ∨ brk = true
      · refine Or.inr (Or.inr ⟨⟨hc, os, brk, hlt, hd, hpre, hrf⟩,
          { r'.addOptions os brk with state := .parsingOptionsFailed }, ?_,
          ffRequestParseOptionsFromPayload_of_refused r cell.node os brk rfl hc hv hrf⟩)
        simp only [ho, if_neg h0, r']
        by_cases hl : cell.node.length.toNat ≤ (encodeOptions os brk).length
        · rw [dif_pos hl]
        · rw [dif_neg hl,
            if_pos (show (Request.addOptions _ os brk).payloadContainsOptions = true from
              hrf.resolve_left hl)]
      · rw [not_or, Nat.not_le, Bool.not_eq_true] at hrf
        obtain ⟨hl, rfl⟩ := hrf
        have hnot : ¬ TakenThenRefused r cell.node := not_takenThenRefused_of_taken hd hpre hl
        refine Or.inr (Or.inl ⟨hnot, { r'.addOptions os false with
          payloadLength := (cell.node.dropOptions _ hl).length.toUInt64
          state := .parsedOptions }, cell.node.dropOptions _ hl, ?_,
          ffRequestParseOptionsFromPayload_of_taken r cell.node os rfl hc hv hl⟩)
        simp only [ho, if_neg h0, r']
        rw [dif_neg (Nat.not_le.mpr hl), if_neg (by simp [Request.addOptions])]
  · rw [if_neg hc]
    rw [Bool.not_eq_true] at hc
    refine Or.inl ⟨?_, { o.fields with state := .parsedOptions }, rfl,
      ffRequestParseOptionsFromPayload_of_not_contains r cell.node rfl hc⟩
    rintro ⟨hc', _⟩
    rw [hc] at hc'
    cases hc'

end Exits

/-! ### Ownership -/

/-- The stage leaves the request with a live payload node, has released only what the request
no longer reaches, and `ff_request_free` then runs without touching released memory and leaves
nothing of the request behind. -/
structure PayloadKept (mem : PayloadHeap) (o : RequestObject) (mem' : PayloadHeap)
    (o' : RequestObject) : Prop where
  live : ∃ a cell, o'.payload = some a ∧ mem'.read a = some cell
  unreachable : ∀ a, mem.read a ≠ none → mem'.read a = none → ¬ Reaches (nextOf mem') o'.payload a
  freed : ∃ mem'', ffRequestFree mem' o'.payload = .ok mem'' ∧
    (∀ b, Reaches (nextOf mem) o.payload b → mem''.read b = none) ∧
    ∀ b, ¬ Reaches (nextOf mem) o.payload b → mem''.read b = mem.read b

/-- The stage ends and keeps the payload in order. -/
def OwnsPayload (mem : PayloadHeap) (o : RequestObject) : Prop :=
  ∃ mem' o', ffRequestParseOptionsFromPayload mem o = .ok (mem', o') ∧ PayloadKept mem o mem' o'

section Ownership

variable {mem : PayloadHeap} {o : RequestObject} {a : Nat} {cell : PayloadCell}

private theorem segment_single (hr : mem.read a = some cell) (hn : cell.next = none) :
    Segment (nextOf mem) [a] none :=
  ⟨by rw [nextOf, hr]; exact hn, trivial⟩

private theorem reaches_single (hr : mem.read a = some cell) (hn : cell.next = none) (b : Nat) :
    Reaches (nextOf mem) (some a) b ↔ b = a := by
  rw [← List.mem_singleton]
  exact (segment_single hr hn).reaches_iff

private theorem free_single (hr : mem.read a = some cell) (hn : cell.next = none) :
    ∃ mem', ffRequestFree mem (some a) = .ok mem' ∧
      ∀ b, mem'.read b = if b = a then none else mem.read b := by
  obtain ⟨mem', hfree, hread⟩ := ffRequestFree_segment (segment_single hr hn)
    (List.nodup_singleton a) (by simp [hr])
  exact ⟨mem', hfree, by simpa using hread⟩

/-- An exit that leaves memory alone keeps the payload. -/
private theorem payloadKept_same (hp : o.payload = some a) (hr : mem.read a = some cell)
    (hn : cell.next = none) (fields : Request) : PayloadKept mem o mem ⟨fields, some a⟩ where
  live := ⟨a, cell, rfl, hr⟩
  unreachable _ h h' := absurd h' h
  freed := by
    obtain ⟨mem'', hfree, hread⟩ := free_single hr hn
    refine ⟨mem'', hfree, fun b hb ↦ ?_, fun b hb ↦ ?_⟩
    · rw [hp, reaches_single hr hn] at hb
      rw [hread, if_pos hb]
    · rw [hp, reaches_single hr hn] at hb
      rw [hread, if_neg hb]

/-- The exit that replaces the node keeps the payload. -/
private theorem payloadKept_replaced (hp : o.payload = some a) (hr : mem.read a = some cell)
    (hn : cell.next = none) (fields : Request) (node : PayloadNode) :
    PayloadKept mem o ((mem.alloc ⟨node, none⟩).free a) ⟨fields, some mem.next⟩ := by
  have hne : mem.next ≠ a := (Heap.ne_next_of_read hr).symm
  have hread : ∀ b, ((mem.alloc ⟨node, none⟩).free a).read b =
      if b = a then none else if b = mem.next then some ⟨node, none⟩ else mem.read b := fun b ↦ by
    rw [Heap.read_free, Heap.read_alloc]
  have hnew : ((mem.alloc ⟨node, none⟩).free a).read mem.next = some ⟨node, none⟩ := by
    rw [hread, if_neg hne, if_pos rfl]
  refine ⟨⟨mem.next, _, rfl, hnew⟩, fun b hb hb' ↦ ?_, ?_⟩
  · change ¬ Reaches _ (some mem.next) b
    rw [reaches_single hnew rfl]
    rintro rfl
    exact hb mem.read_next
  · obtain ⟨mem'', hfree, hread''⟩ := free_single hnew rfl
    refine ⟨mem'', hfree, fun b hb ↦ ?_, fun b hb ↦ ?_⟩
    · rw [hp, reaches_single hr hn] at hb
      rw [hread'', hread, if_pos hb, ite_self]
    · rw [hp, reaches_single hr hn] at hb
      rw [hread'', hread, if_neg hb]
      by_cases hb' : b = mem.next
      · rw [if_pos hb', hb', mem.read_next]
      · rw [if_neg hb', if_neg hb']

/-- The object in memory is the request `r`: its nodes are live and hold the payload of `r`. -/
def Holds (mem : PayloadHeap) (o : RequestObject) (r : Request) : Prop :=
  r = { o.fields with payload := r.payload } ∧
    ∃ as : List Nat, o.payload = as.head? ∧ as.Nodup ∧ Segment (nextOf mem) as none ∧
      as.map (fun a ↦ (mem.read a).map PayloadCell.node) = r.payload.map some

/-- One live node without a link is a payload of one node. -/
theorem holds_single (hr : mem.read a = some cell) (hn : cell.next = none)
    (fields : Request) : Holds mem ⟨fields, some a⟩ { fields with payload := [cell.node] } :=
  ⟨rfl, [a], rfl, List.nodup_singleton a, segment_single hr hn, by simp [hr]⟩

/-- Unless it refuses a list it has taken, the stage in memory does what the function on plain
values says. -/
theorem ffRequestParseOptionsFromPayload_refines (hp : o.payload = some a)
    (hr : mem.read a = some cell) (hn : cell.next = none)
    (h : ¬ TakenThenRefused o.fields cell.node) :
    ∃ mem' o' r', ffRequestParseOptionsFromPayload mem o = .ok (mem', o') ∧
      FfProxy.ffRequestParseOptionsFromPayload { o.fields with payload := [cell.node] } = .ok r' ∧
      Holds mem' o' r' := by
  rcases ffRequestParseOptionsFromPayload_exits hp hr hn with
    ⟨_, fields, hexit, hvalue⟩ | ⟨_, fields, node, hexit, hvalue⟩ | ⟨hrf, _⟩
  · exact ⟨_, _, _, hexit, hvalue, holds_single hr hn fields⟩
  · have hne : mem.next ≠ a := (Heap.ne_next_of_read hr).symm
    have hnew : ((mem.alloc ⟨node, none⟩).free a).read mem.next = some ⟨node, none⟩ := by
      rw [Heap.read_free, if_neg hne, Heap.read_alloc, if_pos rfl]
    exact ⟨_, _, _, hexit, hvalue, holds_single hnew rfl fields⟩
  · exact absurd hrf h

/-- After a refused list the request refers to a released node. -/
theorem not_ownsPayload_of_refused (hp : o.payload = some a) (hr : mem.read a = some cell)
    (hn : cell.next = none) (h : TakenThenRefused o.fields cell.node) : ¬ OwnsPayload mem o := by
  rintro ⟨mem', o', hrun, hkept⟩
  rcases ffRequestParseOptionsFromPayload_exits hp hr hn with
    ⟨hnot, _⟩ | ⟨hnot, _⟩ | ⟨_, fields, hexit, _⟩
  · exact hnot h
  · exact hnot h
  · obtain ⟨rfl, rfl⟩ := Prod.mk.inj (Except.ok.inj (hexit.symm.trans hrun))
    obtain ⟨b, c, hb, hc⟩ := hkept.live
    obtain rfl := Option.some.inj hb
    rw [Heap.read_free, if_pos rfl] at hc
    cases hc

/-- The stage keeps the payload in order exactly when it does not refuse a list it has taken. -/
theorem ownsPayload_iff (mem : PayloadHeap) (o : RequestObject) (a : Nat) (cell : PayloadCell)
    (hp : o.payload = some a) (hr : mem.read a = some cell) (hn : cell.next = none) :
    OwnsPayload mem o ↔ ¬ TakenThenRefused o.fields cell.node := by
  refine ⟨fun h hrf ↦ not_ownsPayload_of_refused hp hr hn hrf h, fun h ↦ ?_⟩
  rcases ffRequestParseOptionsFromPayload_exits hp hr hn with
    ⟨_, fields, hexit, _⟩ | ⟨_, fields, node, hexit, _⟩ | ⟨hrf, _⟩
  · exact ⟨_, _, hexit, payloadKept_same hp hr hn fields⟩
  · exact ⟨_, _, hexit, payloadKept_replaced hp hr hn fields node⟩
  · exact absurd hrf h

end Ownership

/-- Memory with one payload node of the given bytes. -/
def sampleMemory (bytes : List UInt8) : PayloadHeap := Heap.empty.alloc ⟨.ofBytes bytes, none⟩

/-- A request for the sample memory that announces options in its payload. -/
def sampleObject : RequestObject := ⟨{ ffRequestAlloc with payloadContainsOptions := true }, some 0⟩

/-- A payload of an empty option list and one byte is handed on in order. -/
theorem ownsPayload_sample : OwnsPayload (sampleMemory [0, 0, 0, 71]) sampleObject := by
  refine (ownsPayload_iff _ sampleObject 0 ⟨.ofBytes [0, 0, 0, 71], none⟩ rfl rfl rfl).mpr ?_
  rintro ⟨_, os, brk, hlt, hd, hp, hr⟩
  have htaken := ffRequestParseOptions_of_encoded sampleObject.fields
    (PayloadNode.ofBytes [0, 0, 0, 71]).buffer os brk hlt hd hp
  have hrun : ffRequestParseOptions sampleObject.fields (PayloadNode.ofBytes [0, 0, 0, 71]).buffer =
      (sampleObject.fields.addOptions [] false, 3) := by decide
  rw [hrun] at htaken
  have hlen : 3 = (encodeOptions os brk).length := (Prod.mk.inj htaken).2
  have hbrk : false = brk := congrArg Request.payloadContainsOptions (Prod.mk.inj htaken).1
  rw [← hlen, ← hbrk] at hr
  exact absurd hr (by decide)

/-- A payload whose option list is closed by a second BREAK is released under the request. -/
theorem not_ownsPayload_second_break : ¬ OwnsPayload (sampleMemory [7, 0, 0, 71]) sampleObject := by
  have hread : (sampleMemory [7, 0, 0, 71]).read 0 = some ⟨.ofBytes [7, 0, 0, 71], none⟩ := rfl
  exact not_ownsPayload_of_refused rfl hread rfl
    ⟨rfl, [], true, by decide, by simp, by decide, Or.inr rfl⟩

end PayloadHeap
end FfProxy
