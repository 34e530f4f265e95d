import UbServer.Request
import UbServer.Lib.Getopt
import Mathlib.Algebra.Group.Int.Defs
import Mathlib.Data.List.Basic

/-!
# The options of the server

`getOptions` of `options.c`: the defaults, the loop over `getopt_long` and its `switch`. What the
function gets from outside is the working directory and, each time that it sets the name of the log
file, the date.

* `getOptions`: `none` is a store outside an array or a read through `NULL`.
* `Setting`: what a user can ask for.
* `getOptions_settings`: of every setting the last one counts, however the arguments are spelled.
* `getOptions_overflow_iff`: the only accesses outside an array are those of texts that are too long.
-/

namespace UbServer

open Getopt

/-! ### `LOGGER` and `OPTIONS` -/

abbrev inet6AddrStrLen : ℕ := 46
abbrev optionsPathMax : ℕ := 4096
abbrev loggerPathMax : ℕ := 1024
abbrev loggerFileNameMax : ℕ := 15

def defaultLoggerFilePath : Bytes := bytes "/var/log/ub-server/"

/-- `LOGGER` without its lock. -/
structure Logger where
  initialized : Bool
  active : Bool
  path : Bytes
  fileName : Bytes
  fileFd : ℤ

structure ServerOptions extends Options where
  address : Bytes
  port : ℕ
  tcpKeepAlive : Bool

/-- What `getcwd` gives for an array of `OPTIONS_PATH_MAX` bytes, and the date that
`getLoggerFileCurrentDate` gives when it is called for the `n`-th option. -/
structure OptionsEnv where
  cwd : Option Bytes
  date : ℕ → Bytes

/-- `getLoggerFileName` with the date. -/
def loggerFileName (date : Bytes) : Bytes := (date ++ bytes ".log").take (loggerFileNameMax - 1)

/-! ### `atoi` -/

def isSpace (c : UInt8) : Bool := c = 32 ∨ 9 ≤ c ∧ c ≤ 13

def isDigit (c : UInt8) : Bool := 48 ≤ c ∧ c ≤ 57

/-- The number that the digits at the start of a text give. -/
def digitsValue (s : Bytes) : ℕ := (s.takeWhile isDigit).foldl (fun n c => 10 * n + (c.toNat - 48)) 0

/-- `strtol` with base 10: a number that is no `long` becomes the nearest one. -/
def strtol (s : Bytes) : ℤ :=
  match s.dropWhile isSpace with
  | 45 :: s => max (-(digitsValue s : ℤ)) (-2 ^ 63)
  | 43 :: s => min (digitsValue s : ℤ) (2 ^ 63 - 1)
  | s => min (digitsValue s : ℤ) (2 ^ 63 - 1)

/-- `(int)strtol(s, NULL, 10)`. -/
def atoi (s : Bytes) : ℤ := (strtol s).bmod (2 ^ 32)

/-- `(uint16_t)atoi(s)`. -/
def portOf (s : Bytes) : ℕ := (atoi s % 2 ^ 16).toNat

/-! ### `getOptions` -/

/-- `shortOptions` and `longOptions`. -/
def optionsTable : Table where
  short := [(97, true), (112, true), (100, true), (108, false), (104, false), (116, true)]
  long := [⟨bytes "address", true, 97⟩, ⟨bytes "port", true, 112⟩, ⟨bytes "html-dir", true, 100⟩,
    ⟨bytes "logger", false, 108⟩, ⟨bytes "logger-path", true, 116⟩, ⟨bytes "help", false, 104⟩]

inductive OptionsOutcome where
  | run (options : ServerOptions) (logger : Logger)
  | exit (code : ℕ)
  | abort

/-- Active logging under a path. -/
def activateLogger (env : OptionsEnv) (n : ℕ) (logger : Logger) (path : Bytes) : Option Logger := do
  return { logger with
    active := true
    path := ← fits loggerPathMax path
    fileName := ← fits loggerFileNameMax (loggerFileName (env.date n)) }

/-- The `switch` of the `n`-th turn. -/
def optionsTurn (env : OptionsEnv) (n : ℕ) (options : ServerOptions) (logger : Logger) :
    Result → Option OptionsOutcome
  | .option 97 optarg => do
    return .run { options with address := ← fits inet6AddrStrLen (← optarg) } logger
  | .option 112 optarg => do return .run { options with port := portOf (← optarg) } logger
  | .option 100 optarg => do
    return .run { options with htmlDir := ← fits optionsPathMax (← optarg) } logger
  | .option 108 _ => do return .run options (← activateLogger env n logger defaultLoggerFilePath)
  | .option 116 optarg => do return .run options (← activateLogger env n logger (← optarg))
  | .option 104 _ => some (.exit 0)
  | .unknown _ => some (.exit 1)
  | .option 63 _ => some (.exit 1)
  | .option _ _ => some .abort

def optionsLoop (env : OptionsEnv) (n : ℕ) (options : ServerOptions) (logger : Logger) :
    List Result → Option OptionsOutcome
  | [] => some (.run options logger)
  | result :: results =>
    match optionsTurn env n options logger result with
    | some (.run options logger) => optionsLoop env (n + 1) options logger results
    | outcome => outcome

def defaultLogger : Logger where
  initialized := false
  active := false
  path := []
  fileName := []
  fileFd := 2

def defaultOptions (htmlDir : Bytes) : ServerOptions where
  htmlDir := htmlDir
  address := bytes "localhost"
  port := 3001
  tcpKeepAlive := false

/-- `args` is `argv` from `argv[1]` on. -/
def getOptions (env : OptionsEnv) (args : List Bytes) : Option OptionsOutcome :=
  match env.cwd with
  | none => some (.exit 1)
  | some dir => do
    let htmlDir ← fits optionsPathMax (dir ++ bytes "/public")
    optionsLoop env 0 (defaultOptions htmlDir) defaultLogger (optionsTable.getopt args)

/-! ### Settings -/

/-- What a user can ask for. -/
inductive Setting where
  | address (text : Bytes)
  | port (n : ℕ)
  | htmlDir (dir : Bytes)
  | logger
  | loggerPath (path : Bytes)

/-- The option that asks for it. -/
def Setting.result : Setting → Result
  | .address text => .option 97 (some text)
  | .port n => .option 112 (some (bytes (toString n)))
  | .htmlDir dir => .option 100 (some dir)
  | .logger => .option 108 none
  | .loggerPath path => .option 116 (some path)

/-- The text of the setting fits its array. -/
def Setting.Fits : Setting → Prop
  | .address text => text.length < inet6AddrStrLen
  | .htmlDir dir => dir.length < optionsPathMax
  | .loggerPath path => path.length < loggerPathMax
  | _ => True

def Setting.address? : Setting → Option Bytes
  | .address text => some text
  | _ => none

/-- The port that a number stands for in a `uint16_t`. -/
def Setting.port? : Setting → Option ℕ
  | .port n => some (min n (2 ^ 63 - 1) % 2 ^ 16)
  | _ => none

def Setting.htmlDir? : Setting → Option Bytes
  | .htmlDir dir => some dir
  | _ => none

def Setting.loggerPath? : Setting → Option Bytes
  | .logger => some defaultLoggerFilePath
  | .loggerPath path => some path
  | _ => none

/-- What the last of the settings that has one asks for. -/
def lastOf {α : Type} (ask : Setting → Option α) (settings : List Setting) : Option α :=
  (settings.filterMap ask).getLast?

section Ports

theorem digitsValue_toString (n : ℕ) : digitsValue (bytes (toString n)) = n := by
  have hdigit : ∀ c ∈ (toString n).toList, 48 ≤ c.toNat ∧ c.toNat ≤ 57 := by
    intro c hc
    have h := Decimal.isDigit_of_mem hc
    rw [Char.isDigit, Bool.and_eq_true, decide_eq_true_eq, decide_eq_true_eq] at h
    exact h
  have hbyte : ∀ c ∈ (toString n).toList, (UInt8.ofNat c.toNat).toNat = c.toNat := by
    intro c hc
    have h := hdigit c hc
    rw [UInt8.toNat_ofNat']
    omega
  have hall : (bytes (toString n)).takeWhile isDigit = bytes (toString n) := by
    rw [List.takeWhile_eq_self_iff]
    intro b hb
    obtain ⟨c, hc, rfl⟩ := List.mem_map.mp hb
    have h := hdigit c hc
    unfold isDigit
    rw [decide_eq_true_eq, UInt8.le_iff_toNat_le, UInt8.le_iff_toNat_le, hbyte c hc]
    exact h
  have hfold : ∀ (l : List Char) (k : ℕ), (∀ c ∈ l, (UInt8.ofNat c.toNat).toNat = c.toNat) →
      (l.map fun c => UInt8.ofNat c.toNat).foldl (fun n c => 10 * n + (c.toNat - 48)) k =
        Nat.ofDigitChars 10 l k := by
    intro l
    induction l with
    | nil => intro k _; rfl
    | cons c l ih =>
      intro k hl
      rw [List.map_cons, List.foldl_cons, ih _ fun d hd => hl d (List.mem_cons_of_mem _ hd),
        hl c List.mem_cons_self, Nat.ofDigitChars_cons]
      rfl
  unfold digitsValue
  rw [hall]
  calc (bytes (toString n)).foldl (fun n c => 10 * n + (c.toNat - 48)) 0
      = Nat.ofDigitChars 10 (toString n).toList 0 := hfold _ 0 hbyte
    _ = Nat.ofDigitChars 10 (Nat.toDigits 10 n) 0 := by
        rw [Nat.toString_eq_repr, Nat.toList_repr]
    _ = n := Nat.ofDigitChars_ten_toDigits

theorem toString_head (n : ℕ) : ∃ c s, bytes (toString n) = c :: s ∧ 48 ≤ c.toNat ∧ c.toNat ≤ 57 := by
  obtain ⟨c, s, h⟩ := List.exists_cons_of_ne_nil (Decimal.toList_ne_nil n)
  have hc : c.isDigit = true := by
    refine Decimal.isDigit_of_mem (n := n) ?_
    rw [h]
    exact List.mem_cons_self
  rw [Char.isDigit, Bool.and_eq_true, decide_eq_true_eq, decide_eq_true_eq] at hc
  refine ⟨UInt8.ofNat c.toNat, s.map fun c => UInt8.ofNat c.toNat, ?_, ?_⟩
  · unfold bytes
    rw [h, List.map_cons]
  · have hlow : 48 ≤ c.toNat := hc.1
    have hhigh : c.toNat ≤ 57 := hc.2
    rw [UInt8.toNat_ofNat']
    omega

theorem strtol_toString (n : ℕ) : strtol (bytes (toString n)) = min (n : ℤ) (2 ^ 63 - 1) := by
  obtain ⟨c, s, hcs, hlow, hhigh⟩ := toString_head n
  have hdrop : (bytes (toString n)).dropWhile isSpace = bytes (toString n) := by
    rw [hcs, List.dropWhile_cons_of_neg]
    unfold isSpace
    rw [decide_eq_true_eq]
    rintro (rfl | ⟨-, hc⟩)
    · exact absurd hlow (by decide)
    · exact absurd (Nat.le_trans hlow (UInt8.le_iff_toNat_le.mp hc)) (by decide)
  unfold strtol
  rw [hdrop]
  split
  · rename_i h
    rw [hcs] at h
    obtain rfl := (List.cons.inj h).1
    exact absurd hlow (by decide)
  · rename_i h
    rw [hcs] at h
    obtain rfl := (List.cons.inj h).1
    exact absurd hlow (by decide)
  · rw [digitsValue_toString]

theorem portOf_toString (n : ℕ) : portOf (bytes (toString n)) = min n (2 ^ 63 - 1) % 2 ^ 16 := by
  unfold portOf atoi
  rw [strtol_toString]
  simp only [Int.bmod]
  omega

end Ports

/-! ### The last setting counts -/

theorem length_loggerFileName (date : Bytes) : (loggerFileName date).length < loggerFileNameMax := by
  unfold loggerFileName
  exact Nat.lt_of_le_of_lt (List.length_take_le _ _) (by decide)

theorem activateLogger_of_lt {env : OptionsEnv} {n : ℕ} {logger : Logger} {path : Bytes}
    (h : path.length < loggerPathMax) :
    activateLogger env n logger path =
      some { logger with active := true, path, fileName := loggerFileName (env.date n) } := by
  unfold activateLogger
  rw [fits_of_lt h, fits_of_lt (length_loggerFileName _)]
  rfl

/-- What is stored when the settings have been handled, the first of them as the `n`-th option. -/
structure Stored (env : OptionsEnv) (n : ℕ) (settings : List Setting)
    (options options' : ServerOptions) (logger logger' : Logger) : Prop where
  address : options'.address = (lastOf Setting.address? settings).getD options.address
  port : options'.port = (lastOf Setting.port? settings).getD options.port
  htmlDir : options'.htmlDir = (lastOf Setting.htmlDir? settings).getD options.htmlDir
  tcpKeepAlive : options'.tcpKeepAlive = options.tcpKeepAlive
  path : logger'.path = (lastOf Setting.loggerPath? settings).getD logger.path
  active : logger'.active = ((lastOf Setting.loggerPath? settings).isSome || logger.active)
  fileName : logger'.fileName = logger.fileName ∧ lastOf Setting.loggerPath? settings = none ∨
    ∃ k < settings.length, logger'.fileName = loggerFileName (env.date (n + k))
  unopened : logger'.initialized = logger.initialized ∧ logger'.fileFd = logger.fileFd

section Settings

variable {env : OptionsEnv} {n : ℕ} {setting : Setting} {settings : List Setting}
  {options options' options'' : ServerOptions} {logger logger' logger'' : Logger}

theorem lastOf_cons {α : Type} (ask : Setting → Option α) (setting : Setting)
    (settings : List Setting) :
    lastOf ask (setting :: settings) = (lastOf ask settings).or (ask setting) := by
  unfold lastOf
  cases h : ask setting with
  | none => rw [List.filterMap_cons_none h, Option.or_none]
  | some a =>
    rw [List.filterMap_cons_some h, List.getLast?_cons]
    cases (settings.filterMap ask).getLast? <;> rfl

theorem Stored.nil : Stored env n [] options options logger logger where
  address := rfl
  port := rfl
  htmlDir := rfl
  tcpKeepAlive := rfl
  path := rfl
  active := (Bool.false_or _).symm
  fileName := Or.inl ⟨rfl, rfl⟩
  unopened := ⟨rfl, rfl⟩

theorem getD_or {α : Type} (a b : Option α) (c : α) : (a.or b).getD c = a.getD (b.getD c) := by
  cases a <;> rfl

theorem Stored.cons (hone : Stored env n [setting] options options' logger logger')
    (hrest : Stored env (n + 1) settings options' options'' logger' logger'') :
    Stored env n (setting :: settings) options options'' logger logger'' := by
  have hlast : ∀ {α : Type} (ask : Setting → Option α), lastOf ask [setting] = ask setting := by
    intro α ask
    rw [lastOf_cons]
    rfl
  obtain ⟨haddress, hport, hdir, halive, hpath, hactive, hname, hopen⟩ := hone
  rw [hlast] at haddress hport hdir hpath hactive hname
  refine
    { address := ?_
      port := ?_
      htmlDir := ?_
      tcpKeepAlive := hrest.tcpKeepAlive.trans halive
      path := ?_
      active := ?_
      fileName := ?_
      unopened := ⟨hrest.unopened.1.trans hopen.1, hrest.unopened.2.trans hopen.2⟩ }
  · rw [hrest.address, haddress, lastOf_cons, getD_or]
  · rw [hrest.port, hport, lastOf_cons, getD_or]
  · rw [hrest.htmlDir, hdir, lastOf_cons, getD_or]
  · rw [hrest.path, hpath, lastOf_cons, getD_or]
  · rw [hrest.active, hactive, lastOf_cons, Option.isSome_or, Bool.or_assoc]
  · rcases hrest.fileName with ⟨hkept, hnone⟩ | ⟨k, hk, hdate⟩
    · rcases hname with ⟨hfirst, hask⟩ | ⟨k, hk, hdate⟩
      · refine Or.inl ⟨hkept.trans hfirst, ?_⟩
        rw [lastOf_cons, hnone, hask]
        rfl
      · refine Or.inr ⟨k, Nat.lt_of_lt_of_le hk (Nat.succ_le_succ (Nat.zero_le _)), ?_⟩
        rw [hkept, hdate]
    · refine Or.inr ⟨k + 1, Nat.succ_lt_succ hk, ?_⟩
      rw [hdate, Nat.add_assoc, Nat.add_comm 1 k]

/-- **One turn** stores its setting. -/
theorem optionsTurn_setting (env : OptionsEnv) (n : ℕ) (options : ServerOptions) (logger : Logger)
    (h : setting.Fits) : ∃ options' logger',
    optionsTurn env n options logger setting.result = some (.run options' logger') ∧
      Stored env n [setting] options options' logger logger' := by
  have hlogger : ∀ {path : Bytes} {setting : Setting}, setting.loggerPath? = some path →
      setting.address? = none → setting.port? = none → setting.htmlDir? = none →
      Stored env n [setting] options options logger
        { logger with active := true, path, fileName := loggerFileName (env.date n) } := by
    intro path setting hpath haddress hport hdir
    constructor <;> simp [lastOf, hpath, haddress, hport, hdir]
  cases setting with
  | address text =>
    have htext : text.length < inet6AddrStrLen := h
    refine ⟨{ options with address := text }, logger, ?_, by
      constructor <;> simp [lastOf, Setting.address?, Setting.port?, Setting.htmlDir?,
        Setting.loggerPath?]⟩
    simp only [Setting.result, optionsTurn, Option.bind_eq_bind, Option.bind_some, fits_of_lt htext]
    rfl
  | port m =>
    refine ⟨{ options with port := min m (2 ^ 63 - 1) % 2 ^ 16 }, logger, ?_, by
      constructor <;> simp [lastOf, Setting.address?, Setting.port?, Setting.htmlDir?,
        Setting.loggerPath?]⟩
    simp only [Setting.result, optionsTurn, ← portOf_toString]
    rfl
  | htmlDir dir =>
    have hdir : dir.length < optionsPathMax := h
    refine ⟨{ options with htmlDir := dir }, logger, ?_, by
      constructor <;> simp [lastOf, Setting.address?, Setting.port?, Setting.htmlDir?,
        Setting.loggerPath?]⟩
    simp only [Setting.result, optionsTurn, Option.bind_eq_bind, Option.bind_some, fits_of_lt hdir]
    rfl
  | logger =>
    have hpath : defaultLoggerFilePath.length < loggerPathMax := by decide +kernel
    have hone : Setting.logger.loggerPath? = some defaultLoggerFilePath := rfl
    refine ⟨options, _, ?_, hlogger hone rfl rfl rfl⟩
    simp only [Setting.result, optionsTurn, activateLogger_of_lt hpath]
    rfl
  | loggerPath path =>
    have hpath : path.length < loggerPathMax := h
    have hone : (Setting.loggerPath path).loggerPath? = some path := rfl
    refine ⟨options, _, ?_, hlogger hone rfl rfl rfl⟩
    simp only [Setting.result, optionsTurn, Option.bind_eq_bind, Option.bind_some,
      activateLogger_of_lt hpath]
    rfl

theorem optionsLoop_settings (env : OptionsEnv) (n : ℕ) (options : ServerOptions)
    (logger : Logger) (hfit : ∀ setting ∈ settings, setting.Fits) :
    ∃ options' logger',
      optionsLoop env n options logger (settings.map Setting.result) =
        some (.run options' logger') ∧
      Stored env n settings options options' logger logger' := by
  induction settings generalizing n options logger with
  | nil => exact ⟨options, logger, rfl, Stored.nil⟩
  | cons setting settings ih =>
    obtain ⟨options', logger', hturn, hone⟩ :=
      optionsTurn_setting env n options logger (hfit setting List.mem_cons_self)
    obtain ⟨options'', logger'', hloop, hrest⟩ :=
      ih (n + 1) options' logger' fun s hs => hfit s (List.mem_cons_of_mem _ hs)
    refine ⟨options'', logger'', ?_, hone.cons hrest⟩
    rw [List.map_cons, optionsLoop, hturn]
    exact hloop

/-- **Of every setting the last one counts.** The arguments spell the settings in any of the ways
that `getopt_long` has, alone or in clusters, with operands between them, and end there or at `--`. -/
theorem getOptions_settings {dir : Bytes} (hcwd : env.cwd = some dir)
    (hdir : dir.length + 7 < optionsPathMax) (hfit : ∀ setting ∈ settings, setting.Fits)
    {spellings : List (List Result × List Bytes)}
    (hspelled : ∀ spelling ∈ spellings, Spelled optionsTable spelling.1 spelling.2)
    (hsettings : spellings.flatMap Prod.fst = settings.map Setting.result)
    {rest : List Bytes} (hrest : rest = [] ∨ rest.head? = some [45, 45]) :
    ∃ options logger,
      getOptions env (spellings.flatMap Prod.snd ++ rest) = some (.run options logger) ∧
      Stored env 0 settings (defaultOptions (dir ++ bytes "/public")) options defaultLogger
        logger := by
  obtain ⟨options, logger, hloop, hstored⟩ := optionsLoop_settings env 0
    (defaultOptions (dir ++ bytes "/public")) defaultLogger hfit
  refine ⟨options, logger, ?_, hstored⟩
  have hlength : (dir ++ bytes "/public").length < optionsPathMax := by
    rw [List.length_append]
    exact hdir
  unfold getOptions
  rw [hcwd]
  simp only
  rw [fits_of_lt hlength, Option.bind_eq_bind, Option.bind_some,
    getopt_spelled (by decide +kernel) hspelled hrest, hsettings, hloop]

end Settings

def homeOptionsEnv : OptionsEnv where
  cwd := some (bytes "/home/ub")
  date := fun _ => bytes "2024-02-03"

/-- `-lp 8080 site --html-d=/srv --port 70000`: a cluster, an operand and an abbreviation. The second
port is no `uint16_t`. -/
theorem getOptions_settings_cluster : ∃ options logger,
    getOptions homeOptionsEnv [bytes "-lp", bytes "8080", bytes "site", bytes "--html-d=/srv",
        bytes "--port", bytes "70000"] = some (.run options logger) ∧
      options.port = 4464 ∧ options.htmlDir = bytes "/srv" ∧ options.address = bytes "localhost" ∧
      logger.path = bytes "/var/log/ub-server/" ∧ logger.active = true := by
  have hfit : ∀ setting ∈ ([.logger, .port 8080, .htmlDir (bytes "/srv"), .port 70000] :
      List Setting), setting.Fits := by
    intro setting hsetting
    simp only [List.mem_cons, List.not_mem_nil, or_false] at hsetting
    rcases hsetting with rfl | rfl | rfl | rfl
    · trivial
    · trivial
    · change (bytes "/srv").length < optionsPathMax
      decide +kernel
    · trivial
  have hspelled : ∀ spelling ∈ ([
      ([.option 108 none, .option 112 (some (bytes "8080"))], [bytes "-lp", bytes "8080"]),
      ([], [bytes "site"]),
      ([.option 100 (some (bytes "/srv"))], [bytes "--html-d=/srv"]),
      ([.option 112 (some (bytes "70000"))], [bytes "--port", bytes "70000"])] :
        List (List Result × List Bytes)), Spelled optionsTable spelling.1 spelling.2 := by
    intro spelling hspelling
    simp only [List.mem_cons, List.not_mem_nil, or_false] at hspelling
    rcases hspelling with rfl | rfl | rfl | rfl
    · have hflag : Flags optionsTable [108] := by
        intro c hc
        obtain rfl := List.mem_singleton.mp hc
        rfl
      exact Spelled.apart [108] 112 (bytes "8080") hflag (by decide)
    · exact Spelled.operand _ (Or.inl (by decide +kernel))
    · exact Spelled.longAttached (bytes "html-d") ⟨bytes "html-dir", true, 100⟩ (bytes "/srv")
        (by decide +kernel) rfl (by decide +kernel)
    · exact Spelled.longApart (bytes "port") ⟨bytes "port", true, 112⟩ (bytes "70000")
        (by decide +kernel) rfl (by decide +kernel) (by decide +kernel)
  have hcwd : homeOptionsEnv.cwd = some (bytes "/home/ub") := rfl
  obtain ⟨options, logger, h, hstored⟩ := getOptions_settings hcwd (by decide +kernel) hfit hspelled
    (by decide +kernel) (Or.inl rfl)
  exact ⟨options, logger, h, hstored.port, hstored.htmlDir, hstored.address, hstored.path,
    hstored.active⟩

/-! ### Texts that are too long -/

/-- The turn stores what the option says. -/
def Stores : Result → Bool
  | .option 97 (some text) => text.length < inet6AddrStrLen
  | .option 112 (some _) => true
  | .option 100 (some dir) => dir.length < optionsPathMax
  | .option 108 none => true
  | .option 116 (some path) => path.length < loggerPathMax
  | _ => false

/-- The array of the option is too small. -/
def Overlong : Result → Bool
  | .option 97 (some text) => inet6AddrStrLen ≤ text.length
  | .option 100 (some dir) => optionsPathMax ≤ dir.length
  | .option 116 (some path) => loggerPathMax ≤ path.length
  | _ => false

/-- The strings with their NULs are in their arrays, the port is a `uint16_t`. -/
structure InArrays (options : ServerOptions) (logger : Logger) : Prop where
  address : options.address.length < inet6AddrStrLen
  port : options.port < 2 ^ 16
  htmlDir : options.htmlDir.length < optionsPathMax
  path : logger.path.length < loggerPathMax
  fileName : logger.fileName.length < loggerFileNameMax

section Overflow

variable {env : OptionsEnv} {n : ℕ} {options : ServerOptions} {logger : Logger}
  {optarg : Option Bytes} {val : UInt8} {result : Result}

theorem knows_optionsTable (h : optionsTable.Knows val optarg) :
    (∃ text, optarg = some text ∧ (val = 97 ∨ val = 112 ∨ val = 100 ∨ val = 116)) ∨
      optarg = none ∧ (val = 108 ∨ val = 104) := by
  have hmem : (val, optarg.isSome) ∈ optionsTable.short := by
    rcases h with h | ⟨entry, hentry, rfl, harg⟩
    · obtain ⟨before, after, heq, -⟩ := List.lookup_eq_some_iff.mp h
      rw [heq]
      exact List.mem_append_right _ List.mem_cons_self
    · rw [← harg]
      simp only [optionsTable, List.mem_cons, List.not_mem_nil, or_false] at hentry
      rcases hentry with rfl | rfl | rfl | rfl | rfl | rfl <;> decide
  cases optarg with
  | none =>
    simp only [optionsTable, Option.isSome_none, List.mem_cons, Prod.mk.injEq, List.not_mem_nil,
      Bool.false_eq_true, and_false, and_true, or_false, false_or] at hmem
    exact Or.inr ⟨rfl, hmem⟩
  | some text =>
    simp only [optionsTable, Option.isSome_some, List.mem_cons, Prod.mk.injEq, List.not_mem_nil,
      Bool.true_eq_false, and_false, and_true, or_false, false_or] at hmem
    exact Or.inl ⟨text, rfl, hmem⟩

theorem activateLogger_eq (env : OptionsEnv) (n : ℕ) (logger : Logger) (path : Bytes) :
    activateLogger env n logger path = (fits loggerPathMax path).map fun path =>
      { logger with active := true, path, fileName := loggerFileName (env.date n) } := by
  unfold activateLogger
  rw [fits_of_lt (length_loggerFileName _)]
  cases fits loggerPathMax path <;> rfl

theorem fits_of_le {size : ℕ} {s : Bytes} (h : size ≤ s.length) : fits size s = none :=
  if_neg (Nat.not_lt.mpr h)

/-- **What a turn does** with an option of the table: it stores the text of the option, writes past
the end of its array, or ends the program. -/
theorem optionsTurn_cases (env : OptionsEnv) (n : ℕ) (hin : InArrays options logger)
    (hknown : ∀ val optarg, result = .option val optarg → optionsTable.Knows val optarg) :
    (Stores result = true ∧ ∃ options' logger',
      optionsTurn env n options logger result = some (.run options' logger') ∧
        InArrays options' logger') ∨
    (Stores result = false ∧ Overlong result = true ∧
      optionsTurn env n options logger result = none) ∨
    (Stores result = false ∧ Overlong result = false ∧
      ∃ code, optionsTurn env n options logger result = some (.exit code)) := by
  obtain ⟨haddress, hport, hdir, hpath, hname⟩ := hin
  cases result with
  | unknown optopt => exact Or.inr (Or.inr ⟨rfl, rfl, 1, rfl⟩)
  | option val optarg =>
    rcases knows_optionsTable (hknown val optarg rfl) with
      ⟨text, rfl, rfl | rfl | rfl | rfl⟩ | ⟨rfl, rfl | rfl⟩
    · -- `-a`
      rcases Nat.lt_or_ge text.length inet6AddrStrLen with hlt | hge
      · refine Or.inl ⟨decide_eq_true hlt, { options with address := text }, logger, ?_,
          ⟨hlt, hport, hdir, hpath, hname⟩⟩
        simp only [optionsTurn, Option.bind_eq_bind, Option.bind_some, fits_of_lt hlt]
        rfl
      · refine Or.inr (Or.inl ⟨decide_eq_false (Nat.not_lt.mpr hge), decide_eq_true hge, ?_⟩)
        simp only [optionsTurn, Option.bind_eq_bind, Option.bind_some, fits_of_le hge,
          Option.bind_none]
    · -- `-p`
      refine Or.inl ⟨rfl, { options with port := portOf text }, logger, rfl,
        ⟨haddress, ?_, hdir, hpath, hname⟩⟩
      have hnonneg : 0 ≤ atoi text % 2 ^ 16 := Int.emod_nonneg _ (by decide)
      have hlt : atoi text % 2 ^ 16 < 2 ^ 16 := Int.emod_lt_of_pos _ (by decide)
      change (atoi text % 2 ^ 16).toNat < 2 ^ 16
      omega
    · -- `-d`
      rcases Nat.lt_or_ge text.length optionsPathMax with hlt | hge
      · refine Or.inl ⟨decide_eq_true hlt, { options with htmlDir := text }, logger, ?_,
          ⟨haddress, hport, hlt, hpath, hname⟩⟩
        simp only [optionsTurn, Option.bind_eq_bind, Option.bind_some, fits_of_lt hlt]
        rfl
      · refine Or.inr (Or.inl ⟨decide_eq_false (Nat.not_lt.mpr hge), decide_eq_true hge, ?_⟩)
        simp only [optionsTurn, Option.bind_eq_bind, Option.bind_some, fits_of_le hge,
          Option.bind_none]
    · -- `--logger-path`
      rcases Nat.lt_or_ge text.length loggerPathMax with hlt | hge
      · refine Or.inl ⟨decide_eq_true hlt, options,
          { logger with
            active := true
            path := text
            fileName := loggerFileName (env.date n) }, ?_,
          ⟨haddress, hport, hdir, hlt, length_loggerFileName (env.date n)⟩⟩
        simp only [optionsTurn, Option.bind_eq_bind, Option.bind_some, activateLogger_of_lt hlt]
        rfl
      · refine Or.inr (Or.inl ⟨decide_eq_false (Nat.not_lt.mpr hge), decide_eq_true hge, ?_⟩)
        simp only [optionsTurn, Option.bind_eq_bind, Option.bind_some, activateLogger_eq,
          fits_of_le hge, Option.map_none, Option.bind_none]
    · -- `-l`
      have hlt : defaultLoggerFilePath.length < loggerPathMax := by decide +kernel
      refine Or.inl ⟨rfl, options,
        { logger with
          active := true
          path := defaultLoggerFilePath
          fileName := loggerFileName (env.date n) }, ?_,
        ⟨haddress, hport, hdir, hlt, length_loggerFileName (env.date n)⟩⟩
      simp only [optionsTurn, Option.bind_eq_bind, activateLogger_of_lt hlt]
      rfl
    · exact Or.inr (Or.inr ⟨rfl, rfl, 0, rfl⟩)

/-- The loop on options of the table: the first that is not stored decides. -/
theorem optionsLoop_cases (env : OptionsEnv) (n : ℕ) {results : List Result}
    (hin : InArrays options logger)
    (hknown : ∀ val optarg, .option val optarg ∈ results → optionsTable.Knows val optarg) :
    ((∃ options' logger', optionsLoop env n options logger results = some (.run options' logger') ∧
        InArrays options' logger') ∨
      ∃ code, optionsLoop env n options logger results = some (.exit code)) ∧
      ¬ (∃ result, results.find? (!Stores ·) = some result ∧ Overlong result = true) ∨
    optionsLoop env n options logger results = none ∧
      ∃ result, results.find? (!Stores ·) = some result ∧ Overlong result = true := by
  induction results generalizing n options logger with
  | nil => exact Or.inl ⟨Or.inl ⟨options, logger, rfl, hin⟩, nofun⟩
  | cons result results ih =>
    rcases optionsTurn_cases env n hin
        (fun val optarg h => hknown val optarg (h ▸ List.mem_cons_self)) with
      ⟨hstores, options', logger', hturn, hin'⟩ | ⟨hstores, hover, hturn⟩ |
        ⟨hstores, hover, code, hturn⟩
    · rw [optionsLoop, hturn, List.find?_cons_of_neg (by simp [hstores])]
      exact ih (n + 1) hin' fun val optarg h => hknown val optarg (List.mem_cons_of_mem _ h)
    · rw [optionsLoop, hturn, List.find?_cons_of_pos (by simp [hstores])]
      exact Or.inr ⟨rfl, result, rfl, hover⟩
    · rw [optionsLoop, hturn, List.find?_cons_of_pos (by simp [hstores])]
      refine Or.inl ⟨Or.inr ⟨code, rfl⟩, ?_⟩
      rintro ⟨found, hfound, hover'⟩
      obtain rfl := Option.some.inj hfound
      rw [hover] at hover'
      cases hover'

/-- **When the options overflow.** Whatever the arguments are, `getOptions` does not reach `abort` nor
the argument of an option that has none. It stores outside an array exactly when the working directory
leaves no room for `/public`, or the first option that does not store is one with a text that is too
long; otherwise the server runs with strings that end in their arrays, or the program ends. -/
theorem getOptions_overflow_iff (env : OptionsEnv) (args : List Bytes) :
    (getOptions env args = none ↔ ∃ dir, env.cwd = some dir ∧ (optionsPathMax ≤ dir.length + 7 ∨
      ∃ result, (optionsTable.getopt args).find? (!Stores ·) = some result ∧
        Overlong result = true)) ∧
    (∀ outcome, getOptions env args = some outcome →
      (∃ options logger, outcome = .run options logger ∧ InArrays options logger) ∨
        ∃ code, outcome = .exit code) := by
  unfold getOptions
  cases hcwd : env.cwd with
  | none =>
    refine ⟨⟨nofun, ?_⟩, ?_⟩
    · rintro ⟨dir, hdir, -⟩
      cases hdir
    · intro outcome h
      exact Or.inr ⟨1, (Option.some.inj h).symm⟩
  | some dir =>
    have hlength : (dir ++ bytes "/public").length = dir.length + 7 := List.length_append
    simp only [Option.some.injEq, exists_eq_left']
    rcases Nat.lt_or_ge (dir.length + 7) optionsPathMax with hlt | hge
    · rw [fits_of_lt (hlength ▸ hlt), Option.bind_eq_bind, Option.bind_some,
        or_iff_right (Nat.not_le.mpr hlt)]
      have haddress : (bytes "localhost").length < inet6AddrStrLen := by decide +kernel
      have hport : 3001 < 2 ^ 16 := by decide
      have hin : InArrays (defaultOptions (dir ++ bytes "/public")) defaultLogger :=
        ⟨haddress, hport, hlength ▸ hlt, by decide, by decide⟩
      have hknown : ∀ val optarg, .option val optarg ∈ optionsTable.getopt args →
          optionsTable.Knows val optarg := fun _ _ h => getopt_known h
      rcases optionsLoop_cases env 0 hin hknown with ⟨hsome, hnot⟩ | ⟨hnone, hover⟩
      · refine ⟨⟨fun h => ?_, fun h => absurd h hnot⟩, fun outcome h => ?_⟩
        · rcases hsome with ⟨options', logger', hrun, -⟩ | ⟨code, hexit⟩
          · rw [hrun] at h
            cases h
          · rw [hexit] at h
            cases h
        · rcases hsome with ⟨options', logger', hrun, hin'⟩ | ⟨code, hexit⟩
          · rw [hrun] at h
            exact Or.inl ⟨options', logger', (Option.some.inj h).symm, hin'⟩
          · rw [hexit] at h
            exact Or.inr ⟨code, (Option.some.inj h).symm⟩
      · refine ⟨⟨fun _ => hover, fun _ => hnone⟩, fun outcome h => ?_⟩
        rw [hnone] at h
        cases h
    · rw [fits_of_le (hlength ▸ hge)]
      exact ⟨⟨fun _ => Or.inl hge, fun _ => rfl⟩, nofun⟩

end Overflow

end UbServer
