import Mathlib.Data.List.TakeWhile
import FfProxy.Server.Arguments

/-!
# Which command lines start the proxy

The command lines that are to start the proxy, as sequences of flags with their values, and the
arguments on which `ff_parse_arguments`, `src/config.c:20–196`, does start it. It starts on all
command lines that are to start it, and on arguments that end with a flag that has no value or
give numbers that only `atoi` takes for such.
-/

namespace FfProxy
open Base

/-- What a flag on the command line asks for. -/
abbrev Setting := FlagSetting ValueFlag Switch Argument

/-- The flags of the proxy by their names. -/
def flagNames : FlagNames Argument ValueFlag Switch := ⟨Names, flagOf, flagOf_eq_some_iff⟩

/-- The arguments are a sequence of flags, each followed by its value if it takes one. The last
flag may be left without its value. -/
abbrev Reads : List Argument → List Setting → Option ValueFlag → Prop := flagNames.Reads

/-- A decimal number in a range. -/
def DecimalIn (arg : Argument) (low high : Nat) : Prop :=
  IsDecimal arg ∧ low ≤ decimalValue arg ∧ decimalValue arg ≤ high

/-- The values that the flags are meant to take. -/
def Setting.Valid (lib : CLibrary) : Setting → Prop
  | .value .port arg => DecimalIn arg 1 65535
  | .value .ipAddress arg => lib.inetPton (familyOf arg) arg = true
  | .value .preSharedKey _ => True
  | .value .pbkdf2Iterations arg => DecimalIn arg 1 (2 ^ 31 - 1)
  | .value .timestampFudgeFactor arg => DecimalIn arg 1 65535
  | .switch _ => True

/-- A command line that starts the proxy. -/
structure CommandLine (lib : CLibrary) (args : List Argument) (settings : List Setting) : Prop where
  reads : Reads args settings none
  valid : ∀ s ∈ settings, s.Valid lib
  port : ∃ arg, .value .port arg ∈ settings

/-- The value that a setting gives to a flag. -/
def Setting.valueOf (flag : ValueFlag) : Setting → Option Argument
  | .value f arg => if f = flag then some arg else none
  | .switch _ => none

/-- The logging level that a setting asks for. -/
def Setting.level : Setting → Option LogType
  | .switch .vvv => some .debug
  | .switch .vv => some .info
  | .switch .v => some .warning
  | _ => none

/-- Whether a setting asks for IPv6 only. -/
def Setting.v6only : Setting → Option Bool
  | .switch .ipv6V6only => some true
  | _ => none

/-- What the last setting with an answer says, or else the default. -/
def lastOr {β : Type} (answer : Setting → Option β) (default : β) (settings : List Setting) : β :=
  (settings.reverse.findSome? answer).getD default

/-- The configuration that the settings ask for, with the given readings of numbers. -/
def configWith (iterations : Argument → UInt32) (fudge : Argument → UInt16)
    (initial : ProxyConfig) (settings : List Setting) : ProxyConfig where
  port := lastOr (fun s ↦ (s.valueOf .port).map some) none settings
  ipAddress := some (lastOr (Setting.valueOf .ipAddress) defaultListenAddress settings)
  timestampFudgeFactor := lastOr (fun s ↦ (s.valueOf .timestampFudgeFactor).map fudge) 30 settings
  key := lastOr (fun s ↦ (s.valueOf .preSharedKey).map some) none settings
  pbkdf2Iterations := lastOr (fun s ↦ (s.valueOf .pbkdf2Iterations).map iterations) 1000 settings
  loggingLevel := lastOr Setting.level .error settings
  ipv6V6only := lastOr Setting.v6only initial.ipv6V6only settings

/-- The configuration that the settings ask for: each field has the value of its last occurrence
or its default. -/
def configured (initial : ProxyConfig) (settings : List Setting) : ProxyConfig :=
  configWith (fun arg ↦ UInt32.ofNat (decimalValue arg)) (fun arg ↦ UInt16.ofNat (decimalValue arg))
    initial settings

/-- `--pre-shared-key` stands where a flag is expected. -/
def GivesKey (args : List Argument) : Prop :=
  ∃ front arg back settings, args = front ++ arg :: back ∧ Reads front settings none ∧
    Names arg (.value .preSharedKey)

/-- The parser starts the proxy on a command line that starts it and on no other arguments, with
the configuration it asks for, and with a key if one is given. -/
structure ParsesCommandLine (lib : CLibrary) (initial : ProxyConfig) (argv : List Argument) :
    Prop where
  starts : (ffParseArguments lib initial argv).action = .startProxy ↔
    ∃ settings, CommandLine lib (argv.drop 1) settings
  fields : ∀ settings, CommandLine lib (argv.drop 1) settings →
    (ffParseArguments lib initial argv).config = configured initial settings
  key : (ffParseArguments lib initial argv).action = .startProxy → GivesKey (argv.drop 1) →
    (ffParseArguments lib initial argv).config.worker.encryption ≠ none

/-- The value passes the check of the source. -/
def Setting.Accepted (lib : CLibrary) : Setting → Prop
  | .value flag arg => checkValue lib flag arg = true
  | .switch _ => True

/-- A number is given as a decimal number that an `int` can hold. -/
def Setting.Plain : Setting → Prop
  | .value .port arg => IsDecimal arg ∧ decimalValue arg < 2 ^ 31
  | .value .pbkdf2Iterations arg => IsDecimal arg ∧ decimalValue arg < 2 ^ 31
  | .value .timestampFudgeFactor arg => IsDecimal arg ∧ decimalValue arg < 2 ^ 31
  | _ => True

/-- Arguments that pass all checks with a last flag that has no value, or with a number that is
not plain. -/
def Slips (lib : CLibrary) (args : List Argument) : Prop :=
  ∃ settings left, Reads args settings left ∧ (∀ s ∈ settings, s.Accepted lib) ∧
    (∃ arg, .value .port arg ∈ settings) ∧ (left ≠ none ∨ ∃ s ∈ settings, ¬ s.Plain)

/-! ### The loop reads the arguments -/

section Loop

variable {lib : CLibrary} {args : List Argument} {settings : List Setting}
  {left : Option ValueFlag} {vars vars' : ArgVars}

/-- The flag whose value a state waits for. -/
def ArgState.pending : ArgState → Option ValueFlag
  | .default => none
  | .value flag => some flag

/-- The state that a flag without a value leaves. -/
def stateOf : Option ValueFlag → ArgState
  | none => .default
  | some flag => .value flag

/-- The loop of the parser as a scanner of flags. -/
def scanner (lib : CLibrary) : FlagScanner Argument ValueFlag Switch ArgVars ArgExit where
  toFlagNames := flagNames
  pending vars := vars.state.pending
  expect vars left := { vars with state := stateOf left }
  check _ := checkValue lib
  store := storeValue lib
  turnOn := turnOn
  help vars := ⟨.printUsage, [], vars.ipv6V6only⟩
  version vars := ⟨.printVersion, [], vars.ipv6V6only⟩
  unknown vars arg := ⟨.invalidArgs, unknownArgument arg, vars.ipv6V6only⟩
  refuse vars flag arg := ⟨.invalidArgs, invalidArgument flag arg, vars.ipv6V6only⟩
  pending_expect _ left := by cases left <;> rfl
  expect_pending
    | ⟨_, _, .default, _, _, _, _, _⟩ => rfl
    | ⟨_, _, .value _, _, _, _, _, _⟩ => rfl
  expect_expect _ _ _ := rfl
  check_expect _ _ _ _ := rfl
  store_expect _ _ flag _ := by cases flag <;> rfl
  turnOn_expect _ _ s := by cases s <;> rfl

/-- The parser goes over the arguments as the scanner does. -/
theorem parseArg_eq_step (lib : CLibrary) : parseArg lib = (scanner lib).step := by
  funext vars arg
  have hfound : (scanner lib).flagOf arg = flagOf arg := rfl
  rw [parseArg, FlagScanner.step, hfound]
  obtain ⟨_, _, state, _, _, _, _, _⟩ := vars
  cases state with
  | value flag => rfl
  | default =>
    cases flagOf arg with
    | none => rfl
    | some flag => cases flag <;> rfl

/-- What a setting does to the variables. -/
abbrev applySetting (lib : CLibrary) : ArgVars → Setting → ArgVars := (scanner lib).apply

/-- The check of a value does not look at the variables. -/
theorem accepts_iff (vars : ArgVars) (s : Setting) :
    (scanner lib).Accepts vars s ↔ s.Accepted lib := by
  cases s <;> rfl

/-- The loop applies settings that pass their checks. -/
theorem parse_of_reads (h : Reads args settings left) (hstate : vars.state = .default)
    (haccepted : ∀ s ∈ settings, s.Accepted lib) :
    args.foldlM (parseArg lib) vars =
      .ok { settings.foldl (applySetting lib) vars with state := stateOf left } := by
  rw [parseArg_eq_step]
  exact FlagScanner.scan_of_reads h (congrArg ArgState.pending hstate)
    (FlagScanner.passes_of_forall fun s hs vars ↦ (accepts_iff vars s).mpr (haccepted s hs))

/-- A loop that comes to its end has read settings that pass their checks. -/
theorem reads_of_parse (h : args.foldlM (parseArg lib) vars = .ok vars')
    (hstate : vars.state = .default) :
    ∃ settings left, Reads args settings left ∧ ∀ s ∈ settings, s.Accepted lib := by
  rw [parseArg_eq_step] at h
  obtain ⟨settings, left, hreads, hpasses⟩ :=
    FlagScanner.reads_of_scan h (congrArg ArgState.pending hstate)
  refine ⟨settings, left, hreads, fun s hs ↦ ?_⟩
  obtain ⟨vars, haccepts⟩ := hpasses.exists_accepts s hs
  exact (accepts_iff vars s).mp haccepts

end Loop

/-! ### The configuration -/

section Configuration

variable {lib : CLibrary} {initial : ProxyConfig} {settings : List Setting}

/-- A variable that every setting overwrites or keeps has its last value or its default. -/
theorem get_settings {β : Type} (get : ArgVars → β) {answer : Setting → Option β}
    (h : ∀ vars s, get (applySetting lib vars s) = (answer s).getD (get vars)) (vars : ArgVars) :
    get (settings.foldl (applySetting lib) vars) = lastOr answer (get vars) settings :=
  (get_foldl get h vars settings).trans (scanForward_eq answer _ settings)

/-- A value that is given has a last occurrence. -/
theorem exists_lastOr {answer : Setting → Option Argument} {s : Setting} {arg : Argument}
    (hs : s ∈ settings) (harg : answer s = some arg) :
    ∃ last, lastOr (fun s ↦ (answer s).map some) none settings = some last := by
  have hsome : (settings.reverse.findSome? fun s ↦ (answer s).map some).isSome := by
    rw [List.findSome?_isSome_iff]
    exact ⟨s, List.mem_reverse.mpr hs, by rw [harg]; rfl⟩
  obtain ⟨found, hfound⟩ := Option.isSome_iff_exists.mp hsome
  obtain ⟨t, _, ht⟩ := List.exists_of_findSome?_eq_some hfound
  rw [lastOr, hfound]
  cases hanswer : answer t with
  | none =>
    rw [hanswer] at ht
    cases ht
  | some last =>
    rw [hanswer] at ht
    cases ht
    exact ⟨last, rfl⟩

/-- The configuration that the source makes of settings. -/
def configOf (lib : CLibrary) : ProxyConfig → List Setting → ProxyConfig :=
  configWith (fun arg ↦ UInt32.ofInt (lib.atoi arg)) fun arg ↦ UInt16.ofInt (lib.atoi arg)

/-- A setting overwrites the variables that it has an answer for. -/
theorem applySetting_eq (lib : CLibrary) (vars : ArgVars) (s : Setting) :
    applySetting lib vars s = {
      port := ((s.valueOf .port).map some).getD vars.port
      listenAddress := (s.valueOf .ipAddress).getD vars.listenAddress
      state := vars.state
      loggingLevel := s.level.getD vars.loggingLevel
      key := ((s.valueOf .preSharedKey).map some).getD vars.key
      pbkdf2Iterations := ((s.valueOf .pbkdf2Iterations).map fun arg ↦
        UInt32.ofInt (lib.atoi arg)).getD vars.pbkdf2Iterations
      timestampFudgeFactor := ((s.valueOf .timestampFudgeFactor).map fun arg ↦
        UInt16.ofInt (lib.atoi arg)).getD vars.timestampFudgeFactor
      ipv6V6only := s.v6only.getD vars.ipv6V6only } := by
  cases s with
  | value flag arg => cases flag <;> rfl
  | switch s => cases s <;> rfl

/-- The variables hold this configuration. -/
theorem config_settings (lib : CLibrary) (initial : ProxyConfig) (settings : List Setting) :
    (settings.foldl (applySetting lib) (.start initial)).config =
      configOf lib initial settings := by
  apply ProxyConfig.ext
  · exact get_settings ArgVars.port (fun vars s ↦ by rw [applySetting_eq]) _
  · refine congrArg some ?_
    exact get_settings ArgVars.listenAddress (fun vars s ↦ by rw [applySetting_eq]) _
  · exact get_settings ArgVars.timestampFudgeFactor (fun vars s ↦ by rw [applySetting_eq]) _
  · exact get_settings ArgVars.key (fun vars s ↦ by rw [applySetting_eq]) _
  · exact get_settings ArgVars.pbkdf2Iterations (fun vars s ↦ by rw [applySetting_eq]) _
  · exact get_settings ArgVars.loggingLevel (fun vars s ↦ by rw [applySetting_eq]) _
  · exact get_settings ArgVars.ipv6V6only (fun vars s ↦ by rw [applySetting_eq]) _

/-- The parser ends with this configuration if it has a port. -/
theorem finishArguments_settings (lib : CLibrary) (initial : ProxyConfig)
    (settings : List Setting) (left : Option ValueFlag) :
    finishArguments initial
        (.ok { settings.foldl (applySetting lib) (.start initial) with state := stateOf left }) =
      if (configOf lib initial settings).port = none then
        ⟨.invalidArgs, { initial with
          ipv6V6only := (configOf lib initial settings).ipv6V6only }, portRequired⟩
      else ⟨.startProxy, configOf lib initial settings, []⟩ := by
  rw [← config_settings]
  rfl

/-- A port is configured exactly if one is given. -/
theorem configOf_port_eq_none_iff :
    (configOf lib initial settings).port = none ↔ ¬ ∃ arg, .value .port arg ∈ settings := by
  constructor
  · rintro hnone ⟨arg, hmem⟩
    obtain ⟨last, hlast⟩ := exists_lastOr hmem (show Setting.valueOf .port _ = some arg from rfl)
    exact Option.some_ne_none last (hlast.symm.trans hnone)
  · intro hnone
    have hanswers : ∀ s ∈ settings.reverse, ((s.valueOf .port).map some) = none := by
      intro s hs
      cases s with
      | switch s => rfl
      | value flag arg =>
        have hflag : flag ≠ .port := by
          rintro rfl
          exact hnone ⟨arg, List.mem_reverse.mp hs⟩
        rw [Setting.valueOf, if_neg hflag]
        rfl
    change (settings.reverse.findSome? fun s ↦ (s.valueOf .port).map some).getD none = none
    rw [List.findSome?_eq_none_iff.mpr hanswers]
    rfl

/-- Readings that agree on the values given to a flag lead to the same last value. -/
private theorem lastOr_map_congr {β : Type} {f g : Argument → β} {flag : ValueFlag}
    (h : ∀ arg, .value flag arg ∈ settings → f arg = g arg) (default : β) :
    lastOr (fun s ↦ (s.valueOf flag).map f) default settings =
      lastOr (fun s ↦ (s.valueOf flag).map g) default settings := by
  rw [lastOr, lastOr, ← scanForward_eq, ← scanForward_eq]
  refine scanForward_congr (fun s hs ↦ ?_) default
  cases s with
  | switch s => rfl
  | value flag' arg =>
    by_cases hflag : flag' = flag
    · subst hflag
      rw [Setting.valueOf, if_pos rfl, Option.map_some, Option.map_some, h arg hs]
    · rw [Setting.valueOf, if_neg hflag]
      rfl

private theorem uint32_ofInt {n : Nat} (h : n < 2 ^ 31) : UInt32.ofInt n = UInt32.ofNat n :=
  congrArg UInt32.ofNat (show ((n : Int) % 2 ^ 32).toNat = n by omega)

/-- The values that the flags are meant to take are plain ones that pass the checks. -/
theorem Setting.valid_iff (lib : CLibrary) (s : Setting) :
    s.Valid lib ↔ s.Accepted lib ∧ s.Plain := by
  have huint16 : ∀ arg, DecimalIn arg 1 65535 ↔
      isUint16 (lib.atoi arg) = true ∧ IsDecimal arg ∧ decimalValue arg < 2 ^ 31 := by
    intro arg
    rw [DecimalIn, isUint16, decide_eq_true_eq]
    constructor
    · rintro ⟨hdecimal, hlow, hhigh⟩
      rw [lib.atoi_decimal arg hdecimal (by omega)]
      exact ⟨by omega, hdecimal, by omega⟩
    · rintro ⟨hrange, hdecimal, hint⟩
      rw [lib.atoi_decimal arg hdecimal hint] at hrange
      exact ⟨hdecimal, by omega, by omega⟩
  cases s with
  | switch s => exact ⟨fun _ ↦ ⟨trivial, trivial⟩, fun _ ↦ trivial⟩
  | value flag arg =>
    cases flag with
    | port => exact huint16 arg
    | ipAddress => exact (and_iff_left trivial).symm
    | preSharedKey => exact ⟨fun _ ↦ ⟨rfl, trivial⟩, fun _ ↦ trivial⟩
    | timestampFudgeFactor => exact huint16 arg
    | pbkdf2Iterations =>
      have huint32 : IsDecimal arg → decimalValue arg < 2 ^ 31 →
          (UInt32.ofInt (lib.atoi arg) ≠ 0 ↔ 1 ≤ decimalValue arg) := by
        intro hdecimal hint
        rw [lib.atoi_decimal arg hdecimal hint, uint32_ofInt hint, ne_eq, ← UInt32.toNat_inj,
          UInt32.toNat_ofNat', Nat.mod_eq_of_lt (by omega), UInt32.toNat_zero]
        omega
      rw [Setting.Valid, DecimalIn, Setting.Accepted, checkValue, decide_eq_true_eq, Setting.Plain]
      constructor
      · rintro ⟨hdecimal, hlow, hhigh⟩
        exact ⟨(huint32 hdecimal (by omega)).mpr hlow, hdecimal, by omega⟩
      · rintro ⟨hpositive, hdecimal, hint⟩
        exact ⟨hdecimal, (huint32 hdecimal hint).mp hpositive, by omega⟩

/-- On values that the flags are meant to take the source makes the configuration that is asked
for. -/
theorem configOf_eq_configured (hvalid : ∀ s ∈ settings, s.Valid lib) :
    configOf lib initial settings = configured initial settings := by
  have hfudge : ∀ arg, .value .timestampFudgeFactor arg ∈ settings →
      UInt16.ofInt (lib.atoi arg) = UInt16.ofNat (decimalValue arg) := by
    intro arg hmem
    obtain ⟨hdecimal, _, hhigh⟩ := hvalid _ hmem
    rw [lib.atoi_decimal arg hdecimal (by omega)]
    exact congrArg UInt16.ofNat
      (show ((decimalValue arg : Int) % 2 ^ 16).toNat = decimalValue arg by omega)
  have hiterations : ∀ arg, .value .pbkdf2Iterations arg ∈ settings →
      UInt32.ofInt (lib.atoi arg) = UInt32.ofNat (decimalValue arg) := by
    intro arg hmem
    obtain ⟨hdecimal, _, hhigh⟩ := hvalid _ hmem
    rw [lib.atoi_decimal arg hdecimal (by omega), uint32_ofInt (by omega)]
  rw [configOf, configured, configWith, configWith, lastOr_map_congr hfudge,
    lastOr_map_congr hiterations]

end Configuration

/-! ### The whole parser -/

section Parser

variable {lib : CLibrary} {initial : ProxyConfig} {argv : List Argument}
  {settings : List Setting} {left : Option ValueFlag}

/-- Arguments that are read and pass the checks, with a port among them, start the proxy. -/
theorem ffParseArguments_of_reads (hreads : Reads (argv.drop 1) settings left)
    (haccepted : ∀ s ∈ settings, s.Accepted lib) (hport : ∃ arg, .value .port arg ∈ settings) :
    ffParseArguments lib initial argv = ⟨.startProxy, configOf lib initial settings, []⟩ := by
  rw [ffParseArguments, parse_of_reads hreads rfl haccepted, finishArguments_settings,
    if_neg (mt configOf_port_eq_none_iff.mp (not_not_intro hport))]

/-- No other arguments do. -/
theorem exists_reads_of_starts
    (h : (ffParseArguments lib initial argv).action = .startProxy) :
    ∃ settings left, Reads (argv.drop 1) settings left ∧ (∀ s ∈ settings, s.Accepted lib) ∧
      ∃ arg, .value .port arg ∈ settings := by
  rw [ffParseArguments] at h
  cases hloop : (argv.drop 1).foldlM (parseArg lib) (.start initial) with
  | error exit =>
    rw [hloop] at h
    exact absurd h (parse_exit hloop)
  | ok vars =>
    obtain ⟨settings, left, hreads, haccepted⟩ := reads_of_parse hloop rfl
    refine ⟨settings, left, hreads, haccepted, ?_⟩
    rw [parse_of_reads hreads rfl haccepted, finishArguments_settings] at h
    by_contra hport
    rw [if_pos (configOf_port_eq_none_iff.mpr hport)] at h
    cases h

/-- A key that is given is configured. -/
theorem configured_key {args : List Argument} (hreads : Reads args settings none)
    (hgives : GivesKey args) : (configured initial settings).worker.encryption ≠ none := by
  obtain ⟨front, arg, back, earlier, rfl, hfront, hnames⟩ := hgives
  obtain ⟨later, rfl, hlater⟩ := hfront.append_inv rfl hreads
  cases back with
  | nil => cases (hlater.of_pending hnames).2
  | cons key rest =>
    obtain ⟨rest, rfl, _⟩ := hlater.of_value hnames
    have hmem : .value .preSharedKey key ∈ earlier ++ .value .preSharedKey key :: rest :=
      List.mem_append_right _ List.mem_cons_self
    obtain ⟨last, hlast⟩ := exists_lastOr hmem
      (show Setting.valueOf .preSharedKey _ = some key from rfl)
    have hkey : (configured initial (earlier ++ .value .preSharedKey key :: rest)).key =
        some last := hlast
    rw [ProxyConfig.worker, hkey]
    exact nofun

end Parser

/-- The parser is right about arguments exactly if they do not pass its checks with a flag that
has no value or with a number that is not plain. -/
theorem parsesCommandLine_iff (lib : CLibrary) (initial : ProxyConfig) (argv : List Argument) :
    ParsesCommandLine lib initial argv ↔ ¬ Slips lib (argv.drop 1) := by
  constructor
  · rintro hparses ⟨settings, left, hreads, haccepted, hport, hslip⟩
    have hstart : (ffParseArguments lib initial argv).action = .startProxy := by
      rw [ffParseArguments_of_reads hreads haccepted hport]
    obtain ⟨settings', hline⟩ := hparses.starts.mp hstart
    obtain ⟨rfl, rfl⟩ := hreads.unique hline.reads
    obtain hleft | ⟨s, hs, hplain⟩ := hslip
    · exact hleft rfl
    · exact hplain ((s.valid_iff lib).mp (hline.valid s hs)).2
  · intro hslips
    have hline : (ffParseArguments lib initial argv).action = .startProxy →
        ∃ settings, CommandLine lib (argv.drop 1) settings := by
      intro hstart
      obtain ⟨settings, left, hreads, haccepted, hport⟩ := exists_reads_of_starts hstart
      obtain rfl : left = none := by
        by_contra hleft
        exact hslips ⟨settings, left, hreads, haccepted, hport, .inl hleft⟩
      refine ⟨settings, hreads, fun s hs ↦ (s.valid_iff lib).mpr ⟨haccepted s hs, ?_⟩, hport⟩
      by_contra hplain
      exact hslips ⟨settings, none, hreads, haccepted, hport, .inr ⟨s, hs, hplain⟩⟩
    have hparsed : ∀ settings, CommandLine lib (argv.drop 1) settings →
        ffParseArguments lib initial argv = ⟨.startProxy, configured initial settings, []⟩ := by
      intro settings hsettings
      rw [ffParseArguments_of_reads hsettings.reads
        (fun s hs ↦ ((s.valid_iff lib).mp (hsettings.valid s hs)).1) hsettings.port,
        configOf_eq_configured hsettings.valid]
    refine ⟨⟨hline, ?_⟩, ?_, ?_⟩
    · rintro ⟨settings, hsettings⟩
      rw [hparsed settings hsettings]
    · intro settings hsettings
      rw [hparsed settings hsettings]
    · intro hstart hgives
      obtain ⟨settings, hsettings⟩ := hline hstart
      rw [hparsed settings hsettings]
      exact configured_key hsettings.reads hgives

/-- `isspace` in the C locale. -/
def isBlankChar (c : UInt8) : Bool := c == 32 || (9 ≤ c && c ≤ 13)

/-- `isdigit`. -/
def isDigit (c : UInt8) : Bool := 48 ≤ c && c ≤ 57

/-- `atoi` on numbers of any size: blanks, a sign and digits, whatever follows them. -/
def plainAtoi (arg : Argument) : Int :=
  match arg.dropWhile isBlankChar with
  | [] => 0
  | c :: rest =>
    if c = 45 then -(decimalValue (rest.takeWhile isDigit))
    else if c = 43 then decimalValue (rest.takeWhile isDigit)
    else decimalValue ((c :: rest).takeWhile isDigit)

/-- The value of the digits that a text starts with. -/
def digitsOf (text : Argument) : Option Nat :=
  if text.takeWhile isDigit = [] then none else some (decimalValue (text.takeWhile isDigit))

/-- The number that a text starts with: blanks, a sign and at least one digit. -/
def numberOf (arg : Argument) : Option Int :=
  match arg.dropWhile isBlankChar with
  | [] => none
  | c :: rest =>
    if c = 45 then (digitsOf rest).map fun n ↦ -(n : Int)
    else if c = 43 then (digitsOf rest).map Nat.cast
    else (digitsOf (c :: rest)).map Nat.cast

theorem digitsOf_getD (text : Argument) :
    (digitsOf text).getD 0 = decimalValue (text.takeWhile isDigit) := by
  rw [digitsOf]
  split
  · next h =>
    rw [h]
    rfl
  · rfl

/-- Where there is no number, `atoi` gives 0. -/
theorem plainAtoi_eq (arg : Argument) : plainAtoi arg = (numberOf arg).getD 0 := by
  rw [plainAtoi, numberOf]
  cases arg.dropWhile isBlankChar with
  | nil => rfl
  | cons c rest =>
    dsimp only
    rw [← digitsOf_getD, ← digitsOf_getD]
    split_ifs
    · cases digitsOf rest <;> rfl
    · cases digitsOf rest <;> rfl
    · cases digitsOf (c :: rest) <;> rfl

/-- A decimal number starts with itself. -/
theorem numberOf_decimal {arg : Argument} (h : IsDecimal arg) :
    numberOf arg = some (decimalValue arg : Int) := by
  have hall : arg.takeWhile isDigit = arg := by
    refine List.takeWhile_eq_self_iff.mpr fun c hc ↦ ?_
    simpa [isDigit] using h.2 c hc
  cases arg with
  | nil => exact absurd rfl h.1
  | cons c rest =>
    have hdigit := (h.2 c List.mem_cons_self).1
    have hminus : c ≠ 45 := by
      rintro rfl
      exact absurd hdigit (by decide)
    have hplus : c ≠ 43 := by
      rintro rfl
      exact absurd hdigit (by decide)
    have hblank : ¬ isBlankChar c = true := by
      intro hblank
      rw [isBlankChar, Bool.or_eq_true, beq_iff_eq, Bool.and_eq_true, decide_eq_true_eq,
        decide_eq_true_eq] at hblank
      rcases hblank with rfl | ⟨_, hle⟩
      · exact absurd hdigit (by decide)
      · exact absurd (UInt8.le_trans hdigit hle) (by decide)
    rw [numberOf, List.dropWhile_cons_of_neg hblank]
    dsimp only
    rw [if_neg hminus, if_neg hplus, digitsOf, hall, if_neg h.1]
    rfl

/-- `plainAtoi` gives the value of a decimal number. -/
theorem plainAtoi_decimal {arg : Argument} (h : IsDecimal arg) :
    plainAtoi arg = decimalValue arg := by
  rw [plainAtoi_eq, numberOf_decimal h]
  rfl

/-- A library with this `atoi` that accepts all addresses. -/
def sampleLibrary : CLibrary := ⟨fun _ _ ↦ true, plainAtoi, fun _ h _ ↦ plainAtoi_decimal h⟩

/-- The zeroed configuration of `src/main.c:13`. Its logging level is not a valid one before it is
set. -/
def globalConfig : ProxyConfig := ⟨none, none, 0, none, 0, .error, false⟩

/-- The arguments `--port 80 --pre-shared-key`. -/
def sampleArguments : List Argument :=
  [ascii ['f', 'f'], ValueFlag.name .port, ascii ['8', '0'], ValueFlag.name .preSharedKey]

/-- A `--pre-shared-key` without a key starts the proxy without one. -/
theorem not_parsesCommandLine_open_key :
    (ffParseArguments sampleLibrary globalConfig sampleArguments).action = .startProxy ∧
      (ffParseArguments sampleLibrary globalConfig sampleArguments).config.worker.encryption =
        none ∧
      ¬ ParsesCommandLine sampleLibrary globalConfig sampleArguments := by
  refine ⟨rfl, rfl, fun hparses ↦ hparses.key rfl ?_ rfl⟩
  exact ⟨[ValueFlag.name .port, ascii ['8', '0']], ValueFlag.name .preSharedKey, [], _, rfl,
    .value (show Names _ (.value .port) from rfl) .nil, rfl⟩

end FfProxy
