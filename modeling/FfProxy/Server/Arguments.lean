import FfProxy.Base.Flags
import FfProxy.Http.DestinationHost
import FfProxy.Server.Process

/-!
# The command line of the proxy

`ff_parse_arguments`, `src/config.c:20–196`. The loop over the arguments is in its default state,
where it expects a flag, or waits for the value of one. What is left when the arguments run out
in the second case is forgotten, and numbers are whatever `atoi` makes of their text.
-/

namespace FfProxy
open Base

/-- An argument, without its terminating zero. -/
abbrev Argument := List UInt8

/-- `enum ff_action`, `src/config.h:20–26`. -/
inductive Action
  | startProxy
  | printVersion
  | printUsage
  | invalidArgs
  deriving DecidableEq, Repr

/-- `enum ff_log_type`, `src/logging.h:4–10`. -/
inductive LogType
  | debug
  | info
  | warning
  | error
  | fatal
  deriving DecidableEq, Repr

/-- `struct ff_config`, `src/config.h:10–18`. A null pointer is `none`. -/
@[ext] structure ProxyConfig where
  port : Option Argument
  ipAddress : Option Argument
  timestampFudgeFactor : UInt16
  key : Option Argument
  pbkdf2Iterations : UInt32
  loggingLevel : LogType
  ipv6V6only : Bool
  deriving DecidableEq, Repr

/-- What the workers read of it. -/
def ProxyConfig.worker (config : ProxyConfig) : Config :=
  ⟨config.timestampFudgeFactor, config.key.map fun key ↦ ⟨key, config.pbkdf2Iterations⟩⟩

/-! ### Flags -/

/-- The flags that take a value. -/
inductive ValueFlag
  | port
  | ipAddress
  | preSharedKey
  | pbkdf2Iterations
  | timestampFudgeFactor
  deriving DecidableEq, Repr

/-- The flags that stand alone. -/
inductive Switch
  | ipv6V6only
  | vvv
  | vv
  | v
  deriving DecidableEq, Repr

/-- The arguments that the default state knows. -/
abbrev Flag := CommandFlag ValueFlag Switch

/-- The name of a flag that takes a value. -/
def ValueFlag.name : ValueFlag → Argument
  | .port => ascii ['-', '-', 'p', 'o', 'r', 't']
  | .ipAddress => ascii ['-', '-', 'i', 'p', '-', 'a', 'd', 'd', 'r', 'e', 's', 's']
  | .preSharedKey =>
    ascii ['-', '-', 'p', 'r', 'e', '-', 's', 'h', 'a', 'r', 'e', 'd', '-', 'k', 'e', 'y']
  | .pbkdf2Iterations =>
    ascii ['-', '-', 'p', 'b', 'k', 'd', 'f', '2', '-', 'i', 't', 'e', 'r', 'a', 't', 'i', 'o',
      'n', 's']
  | .timestampFudgeFactor =>
    ascii ['-', '-', 't', 'i', 'm', 'e', 's', 't', 'a', 'm', 'p', '-', 'f', 'u', 'd', 'g', 'e',
      '-', 'f', 'a', 'c', 't', 'o', 'r']

/-- The name of a flag that stands alone. -/
def Switch.name : Switch → Argument
  | .ipv6V6only => ascii ['-', '-', 'i', 'p', 'v', '6', '-', 'v', '6', 'o', 'n', 'l', 'y']
  | .vvv => ascii ['-', 'v', 'v', 'v']
  | .vv => ascii ['-', 'v', 'v']
  | .v => ascii ['-', 'v']

/-- The name of a flag, in lower case. -/
def Flag.name : Flag → Argument
  | .help => ascii ['-', '-', 'h', 'e', 'l', 'p']
  | .version => ascii ['-', '-', 'v', 'e', 'r', 's', 'i', 'o', 'n']
  | .value flag => flag.name
  | .switch s => s.name

/-- All flags in the order in which the source compares them. -/
def allFlags : List Flag :=
  [.help, .version, .value .port, .value .ipAddress, .switch .ipv6V6only, .value .preSharedKey,
    .value .pbkdf2Iterations, .value .timestampFudgeFactor, .switch .vvv, .switch .vv, .switch .v]

/-- An argument names a flag if `strcasecmp` finds them equal. -/
def Names (arg : Argument) (flag : Flag) : Prop := arg.map toLower = flag.name

instance (arg : Argument) (flag : Flag) : Decidable (Names arg flag) :=
  inferInstanceAs (Decidable (_ = _))

/-- The comparisons of the default state, `src/config.c:40–91`. -/
def flagOf (arg : Argument) : Option Flag := allFlags.find? fun flag ↦ decide (Names arg flag)

private theorem mem_allFlags (flag : Flag) : flag ∈ allFlags := by
  cases flag with
  | help => decide
  | version => decide
  | value flag => cases flag <;> decide
  | switch s => cases s <;> decide

/-- The comparisons find the flag that the argument names. -/
theorem flagOf_eq_some_iff {arg : Argument} {flag : Flag} :
    flagOf arg = some flag ↔ Names arg flag :=
  find?_name_eq_some_iff (show (allFlags.map Flag.name).Nodup by decide) (mem_allFlags flag)

/-! ### Numbers and addresses -/

/-- A decimal number: digits only, and at least one. -/
def IsDecimal (arg : Argument) : Prop := arg ≠ [] ∧ ∀ c ∈ arg, 48 ≤ c ∧ c ≤ 57

/-- The value of a decimal number. -/
def decimalValue (arg : Argument) : Nat := arg.foldl (fun n c ↦ 10 * n + (c.toNat - 48)) 0

/-- `AF_INET` and `AF_INET6`. -/
inductive AddressFamily
  | inet
  | inet6
  deriving DecidableEq, Repr

/-- The functions of the C library that the parser calls: whether `inet_pton` accepts an address,
and `atoi`, which gives the value of a decimal number that an `int` can hold. -/
structure CLibrary where
  inetPton : AddressFamily → Argument → Bool
  atoi : Argument → Int
  atoi_decimal : ∀ arg, IsDecimal arg → decimalValue arg < 2 ^ 31 → atoi arg = decimalValue arg

/-- The family of an address, `src/config.c:115–122`: one with a colon is taken for IPv6. -/
def familyOf (arg : Argument) : AddressFamily := if 58 ∈ arg then .inet6 else .inet

/-! ### The parser -/

/-- The state of the parser, `src/config.c:11–16`. -/
inductive ArgState
  | default
  | value (flag : ValueFlag)
  deriving DecidableEq, Repr

/-- The variables of the parser, `src/config.c:22–31`, and the one field of the configuration that
it sets as it goes. -/
structure ArgVars where
  port : Option Argument
  listenAddress : Argument
  state : ArgState
  loggingLevel : LogType
  key : Option Argument
  pbkdf2Iterations : UInt32
  timestampFudgeFactor : UInt16
  ipv6V6only : Bool
  deriving DecidableEq, Repr

/-- `default_listen_address`, `src/config.c:18`. -/
def defaultListenAddress : Argument := ascii ['0', '.', '0', '.', '0', '.', '0']

/-- The default values, `src/config.c:22–31`. -/
def ArgVars.start (config : ProxyConfig) : ArgVars where
  port := none
  listenAddress := defaultListenAddress
  state := .default
  loggingLevel := .error
  key := none
  pbkdf2Iterations := 1000
  timestampFudgeFactor := 30
  ipv6V6only := config.ipv6V6only

/-- The way out of the loop: the action, what was printed, and the field that had been set. -/
structure ArgExit where
  action : Action
  message : List UInt8
  ipv6V6only : Bool
  deriving DecidableEq, Repr

/-- The message for an unknown argument, `src/config.c:88`. -/
def unknownArgument (arg : Argument) : List UInt8 :=
  ascii ['U', 'n', 'k', 'o', 'w', 'n', ' ', 'a', 'r', 'g', 'u', 'm', 'e', 'n', 't', ' '] ++ arg ++
    ascii ['\n', '\n']

/-- The messages for a value that is refused, `src/config.c:100,126,146,160`. -/
def invalidArgument (flag : ValueFlag) (arg : Argument) : List UInt8 :=
  ascii ['I', 'n', 'v', 'a', 'l', 'i', 'd', ' '] ++ flag.name ++
    ascii [' ', 'a', 'r', 'g', 'u', 'm', 'e', 'n', 't', ':', ' '] ++ arg ++ ascii ['\n', '\n']

/-- The message for a missing port, `src/config.c:182`. -/
def portRequired : List UInt8 :=
  ascii ['-', '-', 'p', 'o', 'r', 't', ' ', 'i', 's', ' ', 'r', 'e', 'q', 'u', 'i', 'r', 'e', 'd',
    '\n', '\n']

/-- A number that passes as a port or as a fudge factor, `src/config.c:98,158`. -/
def isUint16 (parsed : Int) : Bool := decide (0 < parsed ∧ parsed ≤ 65535)

/-- The checks of the values, `src/config.c:94–169`. The iterations are unsigned when they are
compared, so only 0 is refused. -/
def checkValue (lib : CLibrary) (flag : ValueFlag) (arg : Argument) : Bool :=
  match flag with
  | .port => isUint16 (lib.atoi arg)
  | .ipAddress => lib.inetPton (familyOf arg) arg
  | .preSharedKey => true
  | .pbkdf2Iterations => decide (UInt32.ofInt (lib.atoi arg) ≠ 0)
  | .timestampFudgeFactor => isUint16 (lib.atoi arg)

/-- What is stored for a value, `src/config.c:94–169`. -/
def storeValue (lib : CLibrary) (vars : ArgVars) (flag : ValueFlag) (arg : Argument) : ArgVars :=
  match flag with
  | .port => { vars with port := some arg }
  | .ipAddress => { vars with listenAddress := arg }
  | .preSharedKey => { vars with key := some arg }
  | .pbkdf2Iterations => { vars with pbkdf2Iterations := UInt32.ofInt (lib.atoi arg) }
  | .timestampFudgeFactor => { vars with timestampFudgeFactor := UInt16.ofInt (lib.atoi arg) }

/-- What a flag that stands alone does, `src/config.c:58–61,74–85`. -/
def turnOn (vars : ArgVars) : Switch → ArgVars
  | .ipv6V6only => { vars with ipv6V6only := true }
  | .vvv => { vars with loggingLevel := .debug }
  | .vv => { vars with loggingLevel := .info }
  | .v => { vars with loggingLevel := .warning }

/-- One argument, `src/config.c:33–175`. -/
def parseArg (lib : CLibrary) (vars : ArgVars) (arg : Argument) : Except ArgExit ArgVars :=
  match vars.state with
  | .default =>
    match flagOf arg with
    | some .help => .error ⟨.printUsage, [], vars.ipv6V6only⟩
    | some .version => .error ⟨.printVersion, [], vars.ipv6V6only⟩
    | some (.value flag) => .ok { vars with state := .value flag }
    | some (.switch s) => .ok (turnOn vars s)
    | none => .error ⟨.invalidArgs, unknownArgument arg, vars.ipv6V6only⟩
  | .value flag =>
    if checkValue lib flag arg then .ok { storeValue lib vars flag arg with state := .default }
    else .error ⟨.invalidArgs, invalidArgument flag arg, vars.ipv6V6only⟩

/-- The outcome of the parser: its return value, the configuration, and what was printed. -/
structure ParsedArguments where
  action : Action
  config : ProxyConfig
  message : List UInt8
  deriving DecidableEq, Repr

/-- The configuration that the variables make, `src/config.c:187–191`. -/
def ArgVars.config (vars : ArgVars) : ProxyConfig where
  port := vars.port
  ipAddress := some vars.listenAddress
  timestampFudgeFactor := vars.timestampFudgeFactor
  key := vars.key
  pbkdf2Iterations := vars.pbkdf2Iterations
  loggingLevel := vars.loggingLevel
  ipv6V6only := vars.ipv6V6only

/-- The end of the parser, `src/config.c:178–195`. -/
def finishArguments (config : ProxyConfig) : Except ArgExit ArgVars → ParsedArguments
  | .error exit => ⟨exit.action, { config with ipv6V6only := exit.ipv6V6only }, exit.message⟩
  | .ok vars =>
    if vars.port = none then
      ⟨.invalidArgs, { config with ipv6V6only := vars.ipv6V6only }, portRequired⟩
    else ⟨.startProxy, vars.config, []⟩

/-- `ff_parse_arguments`, `src/config.c:20–196`. The first argument is the program. -/
def ffParseArguments (lib : CLibrary) (config : ProxyConfig) (argv : List Argument) :
    ParsedArguments :=
  finishArguments config ((argv.drop 1).foldlM (parseArg lib) (.start config))

/-! ### Arguments that do not start the proxy -/

section Exit

variable {lib : CLibrary} {args : List Argument} {vars : ArgVars} {exit : ArgExit}

/-- An argument that ends the loop does not start the proxy. -/
theorem parseArg_exit {arg : Argument}
    (h : parseArg lib vars arg = .error exit) : exit.action ≠ .startProxy := by
  rw [parseArg] at h
  split at h
  · split at h
    · cases h
      exact nofun
    · cases h
      exact nofun
    · cases h
    · cases h
    · cases h
      exact nofun
  · split at h
    · cases h
    · cases h
      exact nofun

/-- Nor does a loop that is ended. -/
theorem parse_exit (h : args.foldlM (parseArg lib) vars = .error exit) :
    exit.action ≠ .startProxy := by
  induction args generalizing vars with
  | nil => cases h
  | cons arg rest ih =>
    rw [List.foldlM_cons] at h
    cases harg : parseArg lib vars arg with
    | error e =>
      rw [bind_of_error harg] at h
      cases h
      exact parseArg_exit harg
    | ok next =>
      rw [bind_of_ok harg] at h
      exact ih h

end Exit

/-- Unless the proxy is started, only the field that the parser sets as it goes may change. -/
theorem ffParseArguments_keeps_config {lib : CLibrary} {config : ProxyConfig}
    {argv : List Argument} (h : (ffParseArguments lib config argv).action ≠ .startProxy) :
    ∃ v6only, (ffParseArguments lib config argv).config = { config with ipv6V6only := v6only } := by
  rw [ffParseArguments] at h ⊢
  cases hloop : (argv.drop 1).foldlM (parseArg lib) (.start config) with
  | error exit => exact ⟨_, rfl⟩
  | ok vars =>
    rw [hloop, finishArguments] at h
    rw [finishArguments]
    split at h
    · next hport => exact ⟨_, by rw [if_pos hport]⟩
    · exact absurd rfl h

end FfProxy
