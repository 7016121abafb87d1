import FfProxy.Server.CommandLine

/-!
# The iterations on the command lines of the C client and of the proxy

`ff_client_parse_arguments`, `client/c/config.c:18–156`. Like the parser of the proxy it waits for
a flag or for the value of one. The proxy reads the iterations with `atoi`, which gives 0 where it
finds no number; the client reads them with `sscanf`, which then leaves its variable as it was.
-/

namespace FfProxy
open Base

/-- The functions of the C library by which the two programs read numbers. `atoi` gives a number
that an `int` can hold, and 0 if there is no number. `sscanf` with `%u` stores a number of up to 32
bits, where a minus sign negates in the unsigned type, and nothing if there is no number. -/
structure NumberLibrary extends CLibrary where
  sscanf : Argument → Option UInt32
  atoi_number : ∀ {arg : Argument} {v : Int}, numberOf arg = some v → -2 ^ 31 ≤ v → v < 2 ^ 31 →
    atoi arg = v
  atoi_none : ∀ {arg : Argument}, numberOf arg = none → atoi arg = 0
  sscanf_number : ∀ {arg : Argument} {v : Int}, numberOf arg = some v → -2 ^ 32 < v → v < 2 ^ 32 →
    sscanf arg = some (UInt32.ofInt v)
  sscanf_none : ∀ {arg : Argument}, numberOf arg = none → sscanf arg = none

/-- As an unsigned number only 0 is 0. -/
theorem uint32_ofInt_eq_zero_iff {v : Int} (hlow : -2 ^ 32 < v) (hhigh : v < 2 ^ 32) :
    UInt32.ofInt v = 0 ↔ v = 0 := by
  rw [← UInt32.toNat_inj, UInt32.ofInt, UInt32.toNat_ofNat', UInt32.toNat_zero]
  omega

namespace CClient

/-- `enum ff_client_action`, `client/c/config.h:20–26`. -/
inductive Action
  | makeRequest
  | printVersion
  | printUsage
  | invalidArgs
  deriving DecidableEq, Repr

/-- `struct ff_client_config`, `client/c/config.h:11–18`. A null pointer is `none`, and so is a
logging level of 0. -/
structure Config where
  port : Option Argument
  ipAddress : Option Argument
  https : Bool
  key : Option Argument
  pbkdf2Iterations : UInt32
  loggingLevel : Option LogType
  deriving DecidableEq, Repr

/-! ### Flags -/

/-- The flags that take a value. -/
inductive ValueFlag
  | port
  | ipAddress
  | preSharedKey
  | pbkdf2Iterations
  deriving DecidableEq, Repr

/-- The flags that stand alone. -/
inductive Switch
  | https
  | vvv
  | vv
  | v
  deriving DecidableEq, Repr

/-- The arguments that the default state knows. -/
abbrev Flag := CommandFlag ValueFlag Switch

/-- The name of a flag that takes a value; the proxy has the same names. -/
def ValueFlag.name : ValueFlag → Argument
  | .port => FfProxy.ValueFlag.name .port
  | .ipAddress => FfProxy.ValueFlag.name .ipAddress
  | .preSharedKey => FfProxy.ValueFlag.name .preSharedKey
  | .pbkdf2Iterations => FfProxy.ValueFlag.name .pbkdf2Iterations

/-- The name of a flag, in lower case. -/
def Flag.name : Flag → Argument
  | .help => FfProxy.Flag.name .help
  | .version => FfProxy.Flag.name .version
  | .value flag => flag.name
  | .switch .https => ascii ['-', '-', 'h', 't', 't', 'p', 's']
  | .switch .vvv => FfProxy.Switch.name .vvv
  | .switch .vv => FfProxy.Switch.name .vv
  | .switch .v => FfProxy.Switch.name .v

/-- All flags in the order in which the source compares them. -/
def allFlags : List Flag :=
  [.help, .version, .value .port, .value .ipAddress, .value .preSharedKey,
    .value .pbkdf2Iterations, .switch .https, .switch .vvv, .switch .vv, .switch .v]

/-- An argument names a flag if `strcasecmp` finds them equal. -/
def Names (arg : Argument) (flag : Flag) : Prop := arg.map toLower = flag.name

instance (arg : Argument) (flag : Flag) : Decidable (Names arg flag) :=
  inferInstanceAs (Decidable (_ = _))

/-- The comparisons of the default state, `client/c/config.c:39–87`. -/
def flagOf (arg : Argument) : Option Flag := allFlags.find? fun flag ↦ decide (Names arg flag)

private theorem mem_allClientFlags (flag : Flag) : flag ∈ allFlags := by
  cases flag with
  | help => decide
  | version => decide
  | value flag => cases flag <;> decide
  | switch s => cases s <;> decide

/-- The flags of the client by their names. -/
def flagNames : FlagNames Argument ValueFlag Switch where
  Names := Names
  flagOf := flagOf
  flagOf_eq_some_iff := find?_name_eq_some_iff (show (allFlags.map Flag.name).Nodup by decide)
    (mem_allClientFlags _)

/-! ### The parser -/

/-- The state of the parser, `client/c/config.c:10–14`. -/
inductive ArgState
  | default
  | value (flag : ValueFlag)
  deriving DecidableEq, Repr

/-- The variables of the parser, `client/c/config.c:20–23`, and the configuration, of which it sets
the port, the address and `https` as it goes. -/
structure ArgVars where
  state : ArgState
  loggingLevel : LogType
  key : Option Argument
  pbkdf2Iterations : UInt32
  config : Config
  deriving DecidableEq, Repr

/-- The default values and the cleared configuration, `client/c/config.c:20–30`. -/
def ArgVars.start : ArgVars where
  state := .default
  loggingLevel := .error
  key := none
  pbkdf2Iterations := 1000
  config := ⟨none, none, false, none, 0, none⟩

/-- The outcome of the parser: its return value, the configuration, and what was printed. -/
structure ParsedArguments where
  action : Action
  config : Config
  message : List UInt8
  deriving DecidableEq, Repr

/-- The messages for a value that is refused, `client/c/config.c:96,121`. -/
def invalidArgument (flag : ValueFlag) (arg : Argument) : List UInt8 :=
  ascii ['I', 'n', 'v', 'a', 'l', 'i', 'd', ' '] ++ flag.name ++
    ascii [' ', 'a', 'r', 'g', 'u', 'm', 'e', 'n', 't', ':', ' '] ++ arg ++ ascii ['\n', '\n']

/-- What is stored for a value, `client/c/config.c:90–127`. -/
def storeValue (lib : NumberLibrary) (vars : ArgVars) (flag : ValueFlag) (arg : Argument) :
    ArgVars :=
  match flag with
  | .port => { vars with config := { vars.config with port := some arg } }
  | .ipAddress => { vars with config := { vars.config with ipAddress := some arg } }
  | .preSharedKey => { vars with key := some arg }
  | .pbkdf2Iterations =>
    { vars with pbkdf2Iterations := (lib.sscanf arg).getD vars.pbkdf2Iterations }

/-- The checks of the values, `client/c/config.c:90–127`. The iterations are checked after they
are stored. -/
def checkValue (lib : NumberLibrary) (vars : ArgVars) (flag : ValueFlag) (arg : Argument) : Bool :=
  match flag with
  | .port => isUint16 (lib.atoi arg)
  | .ipAddress => true
  | .preSharedKey => true
  | .pbkdf2Iterations => decide ((storeValue lib vars flag arg).pbkdf2Iterations ≠ 0)

/-- What a flag that stands alone does, `client/c/config.c:66–81`. -/
def turnOn (vars : ArgVars) : Switch → ArgVars
  | .https => { vars with config := { vars.config with https := true } }
  | .vvv => { vars with loggingLevel := .debug }
  | .vv => { vars with loggingLevel := .info }
  | .v => { vars with loggingLevel := .warning }

/-- One argument, `client/c/config.c:32–134`. -/
def parseArg (lib : NumberLibrary) (vars : ArgVars) (arg : Argument) :
    Except ParsedArguments ArgVars :=
  match vars.state with
  | .default =>
    match flagOf arg with
    | some .help => .error ⟨.printUsage, vars.config, []⟩
    | some .version => .error ⟨.printVersion, vars.config, []⟩
    | some (.value flag) => .ok { vars with state := .value flag }
    | some (.switch s) => .ok (turnOn vars s)
    | none => .error ⟨.invalidArgs, vars.config, unknownArgument arg⟩
  | .value flag =>
    if checkValue lib vars flag arg then .ok { storeValue lib vars flag arg with state := .default }
    else .error ⟨.invalidArgs, vars.config, invalidArgument flag arg⟩

/-- `default_ip_address`, `client/c/config.c:16`. -/
def defaultIpAddress : Argument := ascii ['1', '2', '7', '.', '0', '.', '0', '.', '1']

/-- The end of the parser, `client/c/config.c:136–155`. -/
def finishArguments : Except ParsedArguments ArgVars → ParsedArguments
  | .error parsed => parsed
  | .ok vars =>
    if vars.config.port = none then ⟨.invalidArgs, vars.config, portRequired⟩
    else ⟨.makeRequest, { vars.config with
      ipAddress := some (vars.config.ipAddress.getD defaultIpAddress)
      key := vars.key
      pbkdf2Iterations := vars.pbkdf2Iterations
      loggingLevel := some vars.loggingLevel }, []⟩

/-- `ff_client_parse_arguments`, `client/c/config.c:18–156`. The first argument is the program. -/
def ffClientParseArguments (lib : NumberLibrary) (argv : List Argument) : ParsedArguments :=
  finishArguments ((argv.drop 1).foldlM (parseArg lib) .start)

/-! ### Reading arguments -/

/-- What a flag on the command line asks for. -/
abbrev Setting := FlagSetting ValueFlag Switch Argument

/-- The arguments are a sequence of flags, each followed by its value if it takes one. -/
abbrev Reads (args : List Argument) (settings : List Setting) : Prop :=
  flagNames.Reads args settings none

/-- The values that the flags are meant to take. -/
def Setting.Valid : Setting → Prop
  | .value .port arg => DecimalIn arg 1 65535
  | .value .ipAddress _ => True
  | .value .preSharedKey _ => True
  | .value .pbkdf2Iterations arg => DecimalIn arg 1 (2 ^ 31 - 1)
  | .switch _ => True

/-- The iterations that a setting asks for. -/
def Setting.iterations : Setting → Option Argument
  | .value .pbkdf2Iterations arg => some arg
  | _ => none

/-! ### The loop reads the arguments -/

section Loop

variable {lib : NumberLibrary} {args : List Argument} {settings : List Setting} {vars : ArgVars}

/-- The flag whose value a state waits for. -/
def ArgState.pending : ArgState → Option ValueFlag
  | .default => none
  | .value flag => some flag

/-- The state that a flag without a value leaves. -/
def stateOf : Option ValueFlag → ArgState
  | none => .default
  | some flag => .value flag

/-- The loop of the parser as a scanner of flags. -/
def scanner (lib : NumberLibrary) :
    FlagScanner Argument ValueFlag Switch ArgVars ParsedArguments where
  toFlagNames := flagNames
  pending vars := vars.state.pending
  expect vars left := { vars with state := stateOf left }
  check := checkValue lib
  store := storeValue lib
  turnOn := turnOn
  help vars := ⟨.printUsage, vars.config, []⟩
  version vars := ⟨.printVersion, vars.config, []⟩
  unknown vars arg := ⟨.invalidArgs, vars.config, unknownArgument arg⟩
  refuse vars flag arg := ⟨.invalidArgs, vars.config, invalidArgument flag arg⟩
  pending_expect _ left := by cases left <;> rfl
  expect_pending
    | ⟨.default, _, _, _, _⟩ => rfl
    | ⟨.value _, _, _, _, _⟩ => rfl
  expect_expect _ _ _ := rfl
  check_expect _ _ flag _ := by cases flag <;> rfl
  store_expect _ _ flag _ := by cases flag <;> rfl
  turnOn_expect _ _ s := by cases s <;> rfl

/-- The parser goes over the arguments as the scanner does. -/
theorem parseArg_eq_step (lib : NumberLibrary) : parseArg lib = (scanner lib).step := by
  funext vars arg
  have hfound : (scanner lib).flagOf arg = flagOf arg := rfl
  rw [parseArg, FlagScanner.step, hfound]
  obtain ⟨state, _, _, _, _⟩ := vars
  cases state with
  | value flag => rfl
  | default =>
    cases flagOf arg with
    | none => rfl
    | some flag => cases flag <;> rfl

/-- What a setting does to the variables. -/
abbrev applySetting (lib : NumberLibrary) : ArgVars → Setting → ArgVars := (scanner lib).apply

/-- The values that the flags are meant to take pass the checks. -/
theorem checkValue_of_valid {flag : ValueFlag} {arg : Argument}
    (h : Setting.Valid (.value flag arg)) : checkValue lib vars flag arg = true := by
  cases flag with
  | port =>
    obtain ⟨hdecimal, hlow, hhigh⟩ := h
    rw [checkValue, isUint16, lib.atoi_decimal arg hdecimal (by omega), decide_eq_true_eq]
    omega
  | ipAddress => rfl
  | preSharedKey => rfl
  | pbkdf2Iterations =>
    obtain ⟨hdecimal, hlow, hhigh⟩ := h
    have hscan := lib.sscanf_number (numberOf_decimal hdecimal) (by omega) (by omega)
    rw [checkValue, storeValue, hscan, decide_eq_true_eq, Option.getD_some, ne_eq,
      uint32_ofInt_eq_zero_iff (by omega) (by omega)]
    omega

/-- Valid settings pass their checks. -/
theorem passes_of_valid (hvalid : ∀ s ∈ settings, s.Valid) :
    (scanner lib).Passes vars settings := by
  refine FlagScanner.passes_of_forall fun s hs vars ↦ ?_
  cases s with
  | value flag arg => exact checkValue_of_valid (hvalid _ hs)
  | switch s => trivial

/-- The iterations are those of the last setting that stores some. -/
theorem iterations_settings (lib : NumberLibrary) (vars : ArgVars) (settings : List Setting) :
    (settings.foldl (applySetting lib) vars).pbkdf2Iterations =
      scanForward lib.sscanf vars.pbkdf2Iterations (settings.filterMap Setting.iterations) := by
  rw [← scanForward_filterMap]
  refine get_foldl ArgVars.pbkdf2Iterations (fun vars s ↦ ?_) vars settings
  cases s with
  | value flag arg => cases flag <;> rfl
  | switch s => cases s <;> rfl

/-- A port that is stored is replaced by another one at most. -/
theorem port_kept (h : vars.config.port ≠ none) :
    (settings.foldl (applySetting lib) vars).config.port ≠ none := by
  induction settings generalizing vars with
  | nil => exact h
  | cons s settings ih =>
    apply ih
    cases s with
    | value flag arg =>
      cases flag with
      | port => exact Option.some_ne_none arg
      | ipAddress => exact h
      | preSharedKey => exact h
      | pbkdf2Iterations => exact h
    | switch s => cases s <;> exact h

/-- A port that is given is stored. -/
theorem port_settings {arg : Argument} (h : .value .port arg ∈ settings) :
    (settings.foldl (applySetting lib) vars).config.port ≠ none := by
  obtain ⟨front, back, rfl⟩ := List.append_of_mem h
  rw [List.foldl_append, List.foldl_cons]
  exact port_kept (Option.some_ne_none arg)

/-- Among valid arguments the iterations are checked with what was stored before them. -/
theorem parse_line {arg val : Argument} {front back : List Argument} {before after : List Setting}
    (hfront : Reads front before) (hnames : Names arg (.value .pbkdf2Iterations))
    (hback : Reads back after) (hvalid : ∀ s ∈ before ++ after, s.Valid)
    (hstate : vars.state = .default) :
    (front ++ arg :: val :: back).foldlM (parseArg lib) vars =
      if (applySetting lib (before.foldl (applySetting lib) vars)
          (.value .pbkdf2Iterations val)).pbkdf2Iterations = 0 then
        .error ⟨.invalidArgs, (before.foldl (applySetting lib) vars).config,
          invalidArgument .pbkdf2Iterations val⟩
      else
        .ok ((before ++ .value .pbkdf2Iterations val :: after).foldl (applySetting lib) vars) := by
  obtain ⟨hbefore, hafter⟩ := List.forall_mem_append.mp hvalid
  have hpending : (scanner lib).pending vars = none := congrArg ArgState.pending hstate
  have hpending' := ((scanner lib).pending_settings vars before).trans hpending
  rw [parseArg_eq_step, List.foldlM_append,
    bind_of_ok (FlagScanner.scan_of_reads_closed hfront hpending (passes_of_valid hbefore)),
    List.foldlM_cons, bind_of_ok (FlagScanner.step_flag hpending' hnames), List.foldlM_cons,
    FlagScanner.step_value hpending', List.foldl_append, List.foldl_cons]
  split_ifs with hcheck hzero hzero
  · exact absurd hzero (of_decide_eq_true hcheck)
  · exact FlagScanner.scan_of_reads_closed hback
      (((scanner lib).pending_apply _ (.value _ _)).trans hpending') (passes_of_valid hafter)
  · rfl
  · exact absurd (decide_eq_true hzero) hcheck

end Loop

end CClient

/-! ### Otherwise valid command lines -/

/-- Valid arguments of the proxy, with `--pbkdf2-iterations` and an argument for it among them. -/
structure ProxyLine (lib : CLibrary) (s : Argument) (before after : List Setting)
    (argv : List Argument) : Prop where
  split : ∃ program front name back, argv = program :: (front ++ name :: s :: back) ∧
    Names name (.value .pbkdf2Iterations) ∧ Reads front before none ∧ Reads back after none
  valid : ∀ setting ∈ before ++ after, setting.Valid lib
  port : ∃ arg, .value .port arg ∈ before ++ after

/-- Valid arguments of the client, with `--pbkdf2-iterations` and an argument for it among them. -/
structure ClientLine (s : Argument) (before after : List CClient.Setting)
    (argv : List Argument) : Prop where
  split : ∃ program front name back, argv = program :: (front ++ name :: s :: back) ∧
    CClient.Names name (.value .pbkdf2Iterations) ∧ CClient.Reads front before ∧
    CClient.Reads back after
  valid : ∀ setting ∈ before ++ after, setting.Valid
  port : ∃ arg, .value .port arg ∈ before ++ after

/-- The iterations of a proxy that is started; `none` if the arguments are refused. -/
def ParsedArguments.iterations (parsed : ParsedArguments) : Option UInt32 :=
  if parsed.action = .startProxy then some parsed.config.pbkdf2Iterations else none

/-- The iterations of a client that makes its request; `none` if the arguments are refused. -/
def CClient.ParsedArguments.iterations (parsed : CClient.ParsedArguments) : Option UInt32 :=
  if parsed.action = .makeRequest then some parsed.config.pbkdf2Iterations else none

/-- The iterations that settings of the proxy ask for. -/
def iterationsOf (settings : List Setting) : List Argument :=
  settings.filterMap (Setting.valueOf .pbkdf2Iterations)

/-- With every library, the proxy and the client refuse otherwise valid arguments with `s` for the
iterations both, or they take the same number from them. What else is given for the iterations is
the same on both command lines. -/
def AgreesOn (s : Argument) : Prop :=
  ∀ (lib : NumberLibrary) (initial : ProxyConfig) (before after : List Setting)
    (before' after' : List CClient.Setting) (argv argv' : List Argument),
    ProxyLine lib.toCLibrary s before after argv → ClientLine s before' after' argv' →
    iterationsOf before = before'.filterMap CClient.Setting.iterations →
    iterationsOf after = after'.filterMap CClient.Setting.iterations →
    (ffParseArguments lib.toCLibrary initial argv).iterations =
      (CClient.ffClientParseArguments lib argv').iterations

section Outcome

variable {lib : NumberLibrary} {s : Argument} {argv : List Argument}

/-- What stands beside an element stands in the whole list. -/
private theorem mem_line {α : Type} {a b : α} {before after : List α} (h : a ∈ before ++ after) :
    a ∈ before ++ b :: after :=
  (List.sublist_cons_self b after).append_left before |>.subset h

theorem iterationsOf_line (s : Argument) (before after : List Setting) :
    iterationsOf (before ++ .value .pbkdf2Iterations s :: after) =
      iterationsOf before ++ s :: iterationsOf after := by
  rw [iterationsOf, List.filterMap_append]
  rfl

/-- The last of the iterations that settings of the proxy ask for. -/
theorem configOf_iterations (initial : ProxyConfig) (settings : List Setting) :
    (configOf lib.toCLibrary initial settings).pbkdf2Iterations =
      scanForward (fun arg ↦ some (UInt32.ofInt (lib.atoi arg))) 1000 (iterationsOf settings) := by
  have hanswer : (fun setting : Setting ↦ (setting.valueOf .pbkdf2Iterations).map
      fun arg ↦ UInt32.ofInt (lib.atoi arg)) = fun setting ↦
        (setting.valueOf .pbkdf2Iterations).bind fun arg ↦ some (UInt32.ofInt (lib.atoi arg)) :=
    funext fun setting ↦ Option.map_eq_bind
  rw [iterationsOf, ← scanForward_filterMap, ← hanswer, scanForward_eq]
  rfl

/-- The proxy refuses 0, and else takes the last number it is given. -/
theorem ProxyLine.iterations_eq {initial : ProxyConfig} {before after : List Setting}
    (h : ProxyLine lib.toCLibrary s before after argv) :
    (ffParseArguments lib.toCLibrary initial argv).iterations =
      if UInt32.ofInt (lib.atoi s) = 0 then none
      else some (scanForward (fun arg ↦ some (UInt32.ofInt (lib.atoi arg))) 1000
        (iterationsOf before ++ s :: iterationsOf after)) := by
  obtain ⟨program, front, name, back, rfl, hnames, hfront, hback⟩ := h.split
  have hreads : Reads ((program :: (front ++ name :: s :: back)).drop 1)
      (before ++ .value .pbkdf2Iterations s :: after) none :=
    hfront.append rfl (.value hnames hback)
  by_cases hzero : UInt32.ofInt (lib.atoi s) = 0
  · have hrefused : (ffParseArguments lib.toCLibrary initial
        (program :: (front ++ name :: s :: back))).action ≠ .startProxy := by
      intro hstarts
      obtain ⟨settings, left, hreads', haccepted, -⟩ := exists_reads_of_starts hstarts
      obtain ⟨rfl, -⟩ := hreads.unique hreads'
      have hcheck : decide (UInt32.ofInt (lib.atoi s) ≠ 0) = true :=
        haccepted _ (List.mem_append_right before List.mem_cons_self)
      exact of_decide_eq_true hcheck hzero
    rw [if_pos hzero, ParsedArguments.iterations, if_neg hrefused]
  · have haccepted : ∀ setting ∈ before ++ .value .pbkdf2Iterations s :: after,
        setting.Accepted lib.toCLibrary := by
      have hvalid : ∀ setting ∈ before ++ after, setting.Accepted lib.toCLibrary :=
        fun setting hmem ↦ ((setting.valid_iff _).mp (h.valid setting hmem)).1
      rw [List.forall_mem_append] at hvalid
      rw [List.forall_mem_append, List.forall_mem_cons]
      exact ⟨hvalid.1, decide_eq_true hzero, hvalid.2⟩
    obtain ⟨port, hport⟩ := h.port
    have hport' : .value .port port ∈ before ++ .value .pbkdf2Iterations s :: after :=
      mem_line hport
    rw [if_neg hzero, ffParseArguments_of_reads hreads haccepted ⟨port, hport'⟩,
      ParsedArguments.iterations, if_pos rfl, configOf_iterations, iterationsOf_line]

/-- The client refuses 0, and else takes the last number it is given. -/
theorem ClientLine.iterations_eq {before after : List CClient.Setting}
    (h : ClientLine s before after argv) :
    (CClient.ffClientParseArguments lib argv).iterations =
      if (lib.sscanf s).getD (scanForward lib.sscanf 1000
          (before.filterMap CClient.Setting.iterations)) = 0 then none
      else some (scanForward lib.sscanf 1000 (before.filterMap CClient.Setting.iterations ++
        s :: after.filterMap CClient.Setting.iterations)) := by
  obtain ⟨program, front, name, back, rfl, hnames, hfront, hback⟩ := h.split
  obtain ⟨port, hport⟩ := h.port
  have hcount : (CClient.applySetting lib (before.foldl (CClient.applySetting lib) .start)
      (.value .pbkdf2Iterations s)).pbkdf2Iterations =
        (lib.sscanf s).getD (scanForward lib.sscanf 1000
          (before.filterMap CClient.Setting.iterations)) :=
    congrArg (lib.sscanf s).getD (CClient.iterations_settings lib .start before)
  rw [CClient.ffClientParseArguments, List.drop_one, List.tail_cons,
    CClient.parse_line hfront hnames hback h.valid rfl, hcount]
  split_ifs with hzero
  · rfl
  · rw [CClient.finishArguments, if_neg (CClient.port_settings (mem_line hport)),
      CClient.ParsedArguments.iterations, if_pos rfl, CClient.iterations_settings,
      List.filterMap_append]
    rfl

end Outcome

/-! ### Where the programs agree -/

/-- A library that gives 0 for a number that an `int` cannot hold and 1 for one of more than 32
bits. -/
def strictLibrary : NumberLibrary where
  inetPton _ _ := true
  atoi arg := ((numberOf arg).map fun v ↦ if -2 ^ 31 ≤ v ∧ v < 2 ^ 31 then v else 0).getD 0
  sscanf arg := (numberOf arg).map fun v ↦
    if -2 ^ 32 < v ∧ v < 2 ^ 32 then UInt32.ofInt v else 1
  atoi_decimal arg hdecimal hlt := by
    rw [numberOf_decimal hdecimal, Option.map_some, if_pos (by omega), Option.getD_some]
  atoi_number h hlow hhigh := by
    rw [h, Option.map_some, if_pos ⟨hlow, hhigh⟩, Option.getD_some]
  atoi_none h := by
    rw [h]
    rfl
  sscanf_number h hlow hhigh := by
    rw [h, Option.map_some, if_pos ⟨hlow, hhigh⟩]
  sscanf_none h := by
    rw [h]
    rfl

/-- A number that an `int` can hold is read alike. -/
theorem NumberLibrary.sscanf_eq_atoi (lib : NumberLibrary) {arg : Argument} {v : Int}
    (h : numberOf arg = some v) (hlow : -2 ^ 31 ≤ v) (hhigh : v < 2 ^ 31) :
    lib.sscanf arg = some (UInt32.ofInt (lib.atoi arg)) := by
  rw [lib.atoi_number h hlow hhigh, lib.sscanf_number h (by omega) (by omega)]

/-- So are the iterations of valid arguments. -/
theorem sscanf_eq_atoi_of_mem (lib : NumberLibrary) {settings : List Setting} {arg : Argument}
    (hvalid : ∀ setting ∈ settings, setting.Valid lib.toCLibrary)
    (hmem : arg ∈ iterationsOf settings) :
    lib.sscanf arg = some (UInt32.ofInt (lib.atoi arg)) := by
  obtain ⟨setting, hsetting, harg⟩ := List.mem_filterMap.mp hmem
  cases setting with
  | switch s => cases harg
  | value flag val =>
    rw [Setting.valueOf] at harg
    split_ifs at harg with hflag
    cases harg
    subst hflag
    obtain ⟨hdecimal, _, hhigh⟩ := hvalid _ hsetting
    exact lib.sscanf_eq_atoi (numberOf_decimal hdecimal) (by omega) (by omega)

section Words

variable {s : Argument} (h : ¬ ∃ v, numberOf s = some v ∧ -2 ^ 31 ≤ v ∧ v < 2 ^ 31)
include h

/-- For any other text `strictLibrary` lets the proxy read 0. -/
theorem strictLibrary_atoi : strictLibrary.atoi s = 0 := by
  change ((numberOf s).map _).getD 0 = 0
  cases hnumber : numberOf s with
  | none => rfl
  | some v =>
    rw [Option.map_some, if_neg fun hrange ↦ h ⟨v, hnumber, hrange⟩]
    rfl

/-- It does not let the client read 0. -/
theorem strictLibrary_sscanf : (strictLibrary.sscanf s).getD 1000 ≠ 0 := by
  change ((numberOf s).map _).getD 1000 ≠ 0
  cases hnumber : numberOf s with
  | none => decide
  | some v =>
    have hv : v ≠ 0 := by
      rintro rfl
      exact h ⟨0, hnumber, by omega, by omega⟩
    rw [Option.map_some, Option.getD_some]
    split_ifs with hrange
    · exact mt (uint32_ofInt_eq_zero_iff hrange.1 hrange.2).mp hv
    · decide

end Words

/-- The arguments `--port 1 --pbkdf2-iterations` and an argument for the iterations. -/
def portAndIterations (s : Argument) : List Argument :=
  [ascii ['f', 'f'], ValueFlag.name .port, ascii ['1'], ValueFlag.name .pbkdf2Iterations, s]

private theorem decimalIn_one : DecimalIn (ascii ['1']) 1 65535 :=
  ⟨⟨by decide, List.forall_mem_singleton.mpr (by decide)⟩, by decide, by decide⟩

theorem proxyLine_portAndIterations (lib : CLibrary) (s : Argument) :
    ProxyLine lib s [.value .port (ascii ['1'])] [] (portAndIterations s) where
  split := ⟨ascii ['f', 'f'], [ValueFlag.name .port, ascii ['1']], ValueFlag.name .pbkdf2Iterations,
    [], rfl, rfl, .value rfl .nil, .nil⟩
  valid := by
    intro setting hmem
    rw [List.append_nil, List.mem_singleton] at hmem
    subst hmem
    exact decimalIn_one
  port := ⟨ascii ['1'], List.mem_cons_self⟩

theorem clientLine_portAndIterations (s : Argument) :
    ClientLine s [.value .port (ascii ['1'])] [] (portAndIterations s) where
  split := ⟨ascii ['f', 'f'], [ValueFlag.name .port, ascii ['1']], ValueFlag.name .pbkdf2Iterations,
    [], rfl, rfl, .value rfl .nil, .nil⟩
  valid := by
    intro setting hmem
    rw [List.append_nil, List.mem_singleton] at hmem
    subst hmem
    exact decimalIn_one
  port := ⟨ascii ['1'], List.mem_cons_self⟩

/-- The proxy and the client agree on exactly the texts that start with a number that an `int` can
hold. -/
theorem agreesOn_iff (s : Argument) :
    AgreesOn s ↔ ∃ v, numberOf s = some v ∧ -2 ^ 31 ≤ v ∧ v < 2 ^ 31 := by
  constructor
  · intro hagrees
    by_contra hnumber
    have hproxy := proxyLine_portAndIterations strictLibrary.toCLibrary s
    have hclient := clientLine_portAndIterations s
    have hsame := hagrees strictLibrary globalConfig _ _ _ _ _ _ hproxy hclient rfl rfl
    have hzero : UInt32.ofInt (strictLibrary.atoi s) = 0 := by
      rw [strictLibrary_atoi hnumber]
      rfl
    have hscan : (strictLibrary.sscanf s).getD (scanForward strictLibrary.sscanf 1000
        ([.value .port (ascii ['1'])].filterMap CClient.Setting.iterations)) ≠ 0 :=
      strictLibrary_sscanf hnumber
    rw [hproxy.iterations_eq, hclient.iterations_eq, if_pos hzero, if_neg hscan] at hsame
    cases hsame
  · rintro ⟨v, hv, hlow, hhigh⟩ lib initial before after before' after' argv argv' hproxy hclient
      hbefore hafter
    have hs := lib.sscanf_eq_atoi hv hlow hhigh
    have hlists : scanForward lib.sscanf 1000 (iterationsOf before ++ s :: iterationsOf after) =
        scanForward (fun arg ↦ some (UInt32.ofInt (lib.atoi arg))) 1000
          (iterationsOf before ++ s :: iterationsOf after) := by
      obtain ⟨hvalid, hvalid'⟩ := List.forall_mem_append.mp hproxy.valid
      refine scanForward_congr ?_ _
      rw [List.forall_mem_append, List.forall_mem_cons]
      exact ⟨fun arg hmem ↦ sscanf_eq_atoi_of_mem lib hvalid hmem, hs,
        fun arg hmem ↦ sscanf_eq_atoi_of_mem lib hvalid' hmem⟩
    rw [hproxy.iterations_eq, hclient.iterations_eq, ← hbefore, ← hafter, hlists, hs,
      Option.getD_some]

/-- On `--pbkdf2-iterations abc` the proxy refuses to start, and the client makes its request with
1000 iterations. -/
theorem not_agreesOn_word :
    (ffParseArguments strictLibrary.toCLibrary globalConfig
        (portAndIterations (ascii ['a', 'b', 'c']))).action = .invalidArgs ∧
      (CClient.ffClientParseArguments strictLibrary
        (portAndIterations (ascii ['a', 'b', 'c']))).action = .makeRequest ∧
      (CClient.ffClientParseArguments strictLibrary
        (portAndIterations (ascii ['a', 'b', 'c']))).config.pbkdf2Iterations = 1000 ∧
      ¬ AgreesOn (ascii ['a', 'b', 'c']) := by
  refine ⟨by decide +kernel, by decide +kernel, by decide +kernel, fun hagrees ↦ ?_⟩
  have hsame := hagrees strictLibrary globalConfig _ _ _ _ _ _
    (proxyLine_portAndIterations _ _) (clientLine_portAndIterations _) rfl rfl
  exact absurd hsame (by decide +kernel)

end FfProxy
