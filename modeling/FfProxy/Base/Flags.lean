import FfProxy.Base.Simulation

/-!
# Scanners of command lines

A program reads its command line in one loop that expects a flag or, behind a flag that takes one,
a value. What the arguments ask for can be read off them without the loop. The loop comes to its
end on exactly the arguments that can be read and whose values pass their checks, and it has then
applied what they ask for, one setting after the other.
-/

namespace FfProxy.Base

/-- The flags of a program: `V` are those that take a value and `S` those that stand alone. -/
inductive CommandFlag (V S : Type)
  | help
  | version
  | value (flag : V)
  | switch (s : S)
  deriving DecidableEq, Repr

/-- What a flag on the command line asks for. -/
inductive FlagSetting (V S α : Type)
  | value (flag : V) (arg : α)
  | switch (s : S)
  deriving DecidableEq, Repr

/-- Which arguments name which flags, and the comparisons that find the flag. -/
structure FlagNames (α V S : Type) where
  Names : α → CommandFlag V S → Prop
  flagOf : α → Option (CommandFlag V S)
  flagOf_eq_some_iff : ∀ {arg flag}, flagOf arg = some flag ↔ Names arg flag

namespace FlagNames

variable {α V S : Type} {names : FlagNames α V S}

/-- An argument names one flag at most. -/
theorem unique {arg : α} {f g : CommandFlag V S} (hf : names.Names arg f)
    (hg : names.Names arg g) : f = g :=
  Option.some.inj ((names.flagOf_eq_some_iff.mpr hf).symm.trans (names.flagOf_eq_some_iff.mpr hg))

/-- The arguments are a sequence of flags, each followed by its value if it takes one. The last
flag may be left without its value. -/
inductive Reads (names : FlagNames α V S) : List α → List (FlagSetting V S α) → Option V → Prop
  | nil : Reads names [] [] none
  | pending {arg : α} {flag : V} (h : names.Names arg (.value flag)) :
      Reads names [arg] [] (some flag)
  | value {arg val : α} {flag : V} {rest : List α} {settings : List (FlagSetting V S α)}
      {left : Option V} (h : names.Names arg (.value flag))
      (hrest : Reads names rest settings left) :
      Reads names (arg :: val :: rest) (.value flag val :: settings) left
  | switch {arg : α} {s : S} {rest : List α} {settings : List (FlagSetting V S α)}
      {left : Option V} (h : names.Names arg (.switch s))
      (hrest : Reads names rest settings left) :
      Reads names (arg :: rest) (.switch s :: settings) left

namespace Reads

variable {args rest : List α} {arg val : α} {settings settings' later : List (FlagSetting V S α)}
  {left left' opened : Option V}

/-- A flag that stands alone is read as such. -/
theorem of_switch {s : S} (h : names.Reads (arg :: rest) settings left)
    (hnames : names.Names arg (.switch s)) :
    ∃ later, settings = .switch s :: later ∧ names.Reads rest later left := by
  cases h with
  | pending hnames' => cases unique hnames hnames'
  | value hnames' _ => cases unique hnames hnames'
  | switch hnames' hrest =>
    cases unique hnames hnames'
    exact ⟨_, rfl, hrest⟩

/-- A flag that takes a value is read with the next argument. -/
theorem of_value {flag : V} (h : names.Reads (arg :: val :: rest) settings left)
    (hnames : names.Names arg (.value flag)) :
    ∃ later, settings = .value flag val :: later ∧ names.Reads rest later left := by
  cases h with
  | value hnames' hrest =>
    cases unique hnames hnames'
    exact ⟨_, rfl, hrest⟩
  | switch hnames' _ => cases unique hnames hnames'

/-- Without a next argument it is left open. -/
theorem of_pending {flag : V} (h : names.Reads [arg] settings left)
    (hnames : names.Names arg (.value flag)) : settings = [] ∧ left = some flag := by
  cases h with
  | pending hnames' =>
    cases unique hnames hnames'
    exact ⟨rfl, rfl⟩
  | switch hnames' _ => cases unique hnames hnames'

/-- Arguments are read one after the other. -/
theorem append (h : names.Reads args settings opened) (hopened : opened = none)
    (hrest : names.Reads rest later left) :
    names.Reads (args ++ rest) (settings ++ later) left := by
  induction h with
  | nil => exact hrest
  | pending _ => cases hopened
  | value hnames _ ih => exact .value hnames (ih hopened)
  | switch hnames _ ih => exact .switch hnames (ih hopened)

/-- What follows arguments that are read is read on its own. -/
theorem append_inv (h : names.Reads args settings opened) (hopened : opened = none)
    (h' : names.Reads (args ++ rest) settings' left) :
    ∃ later, settings' = settings ++ later ∧ names.Reads rest later left := by
  induction h generalizing settings' with
  | nil => exact ⟨settings', rfl, h'⟩
  | pending _ => cases hopened
  | value hnames _ ih =>
    obtain ⟨later, rfl, hrest⟩ := h'.of_value hnames
    obtain ⟨later, rfl, hlater⟩ := ih hopened hrest
    exact ⟨later, rfl, hlater⟩
  | switch hnames _ ih =>
    obtain ⟨later, rfl, hrest⟩ := h'.of_switch hnames
    obtain ⟨later, rfl, hlater⟩ := ih hopened hrest
    exact ⟨later, rfl, hlater⟩

/-- Arguments are read in one way only. -/
theorem unique (h : names.Reads args settings left) (h' : names.Reads args settings' left') :
    settings = settings' ∧ left = left' := by
  induction h generalizing settings' with
  | nil =>
    cases h'
    exact ⟨rfl, rfl⟩
  | pending hnames =>
    obtain ⟨rfl, rfl⟩ := h'.of_pending hnames
    exact ⟨rfl, rfl⟩
  | value hnames _ ih =>
    obtain ⟨later, rfl, hrest⟩ := h'.of_value hnames
    obtain ⟨rfl, rfl⟩ := ih hrest
    exact ⟨rfl, rfl⟩
  | switch hnames _ ih =>
    obtain ⟨later, rfl, hrest⟩ := h'.of_switch hnames
    obtain ⟨rfl, rfl⟩ := ih hrest
    exact ⟨rfl, rfl⟩

end Reads

end FlagNames

/-- The loop of a program with variables `σ` and ways out `ε`. Among the variables is the flag
whose value is expected, if any. Nothing that the loop does for a flag looks at it or sets it. -/
structure FlagScanner (α V S σ ε : Type) extends FlagNames α V S where
  pending : σ → Option V
  expect : σ → Option V → σ
  check : σ → V → α → Bool
  store : σ → V → α → σ
  turnOn : σ → S → σ
  help : σ → ε
  version : σ → ε
  unknown : σ → α → ε
  refuse : σ → V → α → ε
  pending_expect : ∀ x flag, pending (expect x flag) = flag
  expect_pending : ∀ x, expect x (pending x) = x
  expect_expect : ∀ x flag flag', expect (expect x flag) flag' = expect x flag'
  check_expect : ∀ x flag' flag arg, check (expect x flag') flag arg = check x flag arg
  store_expect : ∀ x flag' flag arg,
    store (expect x flag') flag arg = expect (store x flag arg) flag'
  turnOn_expect : ∀ x flag' s, turnOn (expect x flag') s = expect (turnOn x s) flag'

namespace FlagScanner

variable {α V S σ ε : Type} (scanner : FlagScanner α V S σ ε)

/-- One argument. -/
def step (x : σ) (arg : α) : Except ε σ :=
  match scanner.pending x with
  | none =>
    match scanner.flagOf arg with
    | some .help => .error (scanner.help x)
    | some .version => .error (scanner.version x)
    | some (.value flag) => .ok (scanner.expect x (some flag))
    | some (.switch s) => .ok (scanner.turnOn x s)
    | none => .error (scanner.unknown x arg)
  | some flag =>
    if scanner.check x flag arg then .ok (scanner.expect (scanner.store x flag arg) none)
    else .error (scanner.refuse x flag arg)

/-- What a setting does to the variables. -/
def apply (x : σ) : FlagSetting V S α → σ
  | .value flag arg => scanner.store x flag arg
  | .switch s => scanner.turnOn x s

/-- The value of a setting passes its check. -/
def Accepts (x : σ) : FlagSetting V S α → Prop
  | .value flag arg => scanner.check x flag arg = true
  | .switch _ => True

/-- The values of the settings pass their checks, each after the settings in front of it. -/
def Passes : σ → List (FlagSetting V S α) → Prop
  | _, [] => True
  | x, setting :: settings => scanner.Accepts x setting ∧ Passes (scanner.apply x setting) settings

section Step

variable {scanner} {x x' : σ} {arg : α} {flag : V} {s : S}

theorem expect_of_pending {left : Option V} (h : scanner.pending x = left) :
    scanner.expect x left = x :=
  h ▸ scanner.expect_pending x

variable (scanner) in
/-- A setting does not change what is expected. -/
@[simp] theorem pending_apply (x : σ) (setting : FlagSetting V S α) :
    scanner.pending (scanner.apply x setting) = scanner.pending x := by
  cases setting with
  | value flag arg =>
    have h := scanner.store_expect x (scanner.pending x) flag arg
    rw [scanner.expect_pending] at h
    rw [apply, h, scanner.pending_expect]
  | switch s =>
    have h := scanner.turnOn_expect x (scanner.pending x) s
    rw [scanner.expect_pending] at h
    rw [apply, h, scanner.pending_expect]

variable (scanner) in
theorem pending_settings (x : σ) (settings : List (FlagSetting V S α)) :
    scanner.pending (settings.foldl scanner.apply x) = scanner.pending x := by
  induction settings generalizing x with
  | nil => rfl
  | cons setting settings ih => rw [List.foldl_cons, ih, pending_apply]

theorem step_switch (hx : scanner.pending x = none) (hnames : scanner.Names arg (.switch s)) :
    scanner.step x arg = .ok (scanner.turnOn x s) := by
  rw [step, hx, scanner.flagOf_eq_some_iff.mpr hnames]

theorem step_flag (hx : scanner.pending x = none) (hnames : scanner.Names arg (.value flag)) :
    scanner.step x arg = .ok (scanner.expect x (some flag)) := by
  rw [step, hx, scanner.flagOf_eq_some_iff.mpr hnames]

/-- A value is stored if it passes its check, and a flag is expected again. -/
theorem step_value (hx : scanner.pending x = none) :
    scanner.step (scanner.expect x (some flag)) arg =
      if scanner.check x flag arg then .ok (scanner.store x flag arg)
      else .error (scanner.refuse (scanner.expect x (some flag)) flag arg) := by
  have hstored : scanner.pending (scanner.store x flag arg) = none :=
    (scanner.pending_apply x (.value flag arg)).trans hx
  rw [step, scanner.pending_expect]
  dsimp only
  rw [scanner.check_expect, scanner.store_expect, scanner.expect_expect,
    expect_of_pending hstored]

/-- Where a flag is expected, the loop goes on with a flag only. -/
theorem flag_of_step (hx : scanner.pending x = none) (h : scanner.step x arg = .ok x') :
    (∃ s, scanner.Names arg (.switch s) ∧ x' = scanner.turnOn x s) ∨
      ∃ flag, scanner.Names arg (.value flag) ∧ x' = scanner.expect x (some flag) := by
  rw [step, hx] at h
  dsimp only at h
  split at h
  · cases h
  · cases h
  · next flag hflag =>
    exact .inr ⟨flag, scanner.flagOf_eq_some_iff.mp hflag, (Except.ok.inj h).symm⟩
  · next s hflag =>
    exact .inl ⟨s, scanner.flagOf_eq_some_iff.mp hflag, (Except.ok.inj h).symm⟩
  · cases h

/-- Where a value is expected, it goes on with one that passes its check. -/
theorem value_of_step (hx : scanner.pending x = none)
    (h : scanner.step (scanner.expect x (some flag)) arg = .ok x') :
    scanner.check x flag arg = true ∧ x' = scanner.store x flag arg := by
  rw [step_value hx] at h
  split at h
  · next hcheck => exact ⟨hcheck, (Except.ok.inj h).symm⟩
  · cases h

end Step

section Scan

variable {scanner} {x x' : σ} {args : List α} {settings : List (FlagSetting V S α)}
  {left : Option V}

/-- Settings that are accepted whatever the variables are pass their checks. -/
theorem passes_of_forall (h : ∀ setting ∈ settings, ∀ y, scanner.Accepts y setting) :
    scanner.Passes x settings := by
  induction settings generalizing x with
  | nil => trivial
  | cons setting settings ih =>
    obtain ⟨hsetting, hrest⟩ := List.forall_mem_cons.mp h
    exact ⟨hsetting x, ih hrest⟩

/-- Each setting that passes is accepted with some variables. -/
theorem Passes.exists_accepts (h : scanner.Passes x settings) :
    ∀ setting ∈ settings, ∃ y, scanner.Accepts y setting := by
  induction settings generalizing x with
  | nil => exact List.forall_mem_nil _
  | cons setting settings ih => exact List.forall_mem_cons.mpr ⟨⟨x, h.1⟩, ih h.2⟩

/-- The loop applies settings that pass their checks. -/
theorem scan_of_reads (h : scanner.Reads args settings left) (hx : scanner.pending x = none)
    (hpasses : scanner.Passes x settings) :
    args.foldlM scanner.step x = .ok (scanner.expect (settings.foldl scanner.apply x) left) := by
  induction h generalizing x with
  | nil => exact congrArg Except.ok (expect_of_pending hx).symm
  | pending hnames =>
    rw [List.foldlM_cons, step_flag hx hnames]
    rfl
  | @value _ val flag _ _ _ hnames _ ih =>
    obtain ⟨hcheck, hrest⟩ := hpasses
    have hstep : scanner.step (scanner.expect x (some flag)) val =
        .ok (scanner.store x flag val) := (step_value hx).trans (if_pos hcheck)
    rw [List.foldlM_cons, bind_of_ok (step_flag hx hnames), List.foldlM_cons, bind_of_ok hstep]
    exact ih ((scanner.pending_apply x (.value flag val)).trans hx) hrest
  | @switch _ s _ _ _ hnames _ ih =>
    rw [List.foldlM_cons, bind_of_ok (step_switch hx hnames)]
    exact ih ((scanner.pending_apply x (.switch s)).trans hx) hpasses.2

/-- After the last value a flag is expected again. -/
theorem scan_of_reads_closed (h : scanner.Reads args settings none)
    (hx : scanner.pending x = none) (hpasses : scanner.Passes x settings) :
    args.foldlM scanner.step x = .ok (settings.foldl scanner.apply x) := by
  have hend := (scanner.pending_settings x settings).trans hx
  rw [scan_of_reads h hx hpasses, expect_of_pending hend]

/-- A loop that comes to its end has read settings that pass their checks. -/
theorem reads_of_scan (h : args.foldlM scanner.step x = .ok x') (hx : scanner.pending x = none) :
    ∃ settings left, scanner.Reads args settings left ∧ scanner.Passes x settings := by
  -- A flag and its value are read together, so the induction is on the number of arguments.
  induction hn : args.length using Nat.strongRecOn generalizing args x with
  | ind n ih =>
    subst hn
    cases args with
    | nil => exact ⟨[], none, .nil, trivial⟩
    | cons arg rest =>
      rw [List.foldlM_cons] at h
      obtain ⟨next, hnext, h⟩ := bind_eq_ok h
      obtain ⟨s, hnames, rfl⟩ | ⟨flag, hnames, rfl⟩ := flag_of_step hx hnext
      · obtain ⟨settings, left, hreads, hpasses⟩ := ih rest.length (by simp) h
          ((scanner.pending_apply x (.switch s)).trans hx) rfl
        exact ⟨_, _, .switch hnames hreads, trivial, hpasses⟩
      · cases rest with
        | nil => exact ⟨[], some flag, .pending hnames, trivial⟩
        | cons val rest =>
          rw [List.foldlM_cons] at h
          obtain ⟨next, hvalue, h⟩ := bind_eq_ok h
          obtain ⟨hcheck, rfl⟩ := value_of_step hx hvalue
          have hshorter : rest.length < (arg :: val :: rest).length := by
            rw [List.length_cons, List.length_cons]
            omega
          obtain ⟨settings, left, hreads, hpasses⟩ := ih rest.length hshorter h
            ((scanner.pending_apply x (.value flag val)).trans hx) rfl
          exact ⟨_, _, .value hnames hreads, hcheck, hpasses⟩

end Scan

end FlagScanner

end FfProxy.Base
