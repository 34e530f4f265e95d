import Mathlib.Data.List.TakeWhile
import Mathlib.Tactic.Common

/-!
# `getopt_long`

The options that the GNU function finds in a list of arguments. Short options stand alone or in a
cluster, long ones are written out or abbreviated, an argument is joined to its option or comes next,
operands are passed over, and `--` ends the options.

* `Table`: the short and the long options.
* `Table.getopt`: what the calls return, one behind the other.
* `Spelled`: the ways to write options.
* `getopt_spelled`: whatever is written is read.
* `getopt_known`: nothing else is read.
-/

namespace Getopt

/-- An entry of the long options. -/
structure LongOption where
  name : List UInt8
  hasArg : Bool
  val : UInt8
  deriving DecidableEq

/-- The short options, each with whether it takes an argument, and the long ones. -/
structure Table where
  short : List (UInt8 × Bool)
  long : List LongOption

/-- What a call returns: an option with `optarg`, or `'?'` with `optopt`. -/
inductive Result where
  | option (val : UInt8) (optarg : Option (List UInt8))
  | unknown (optopt : UInt8)
  deriving DecidableEq

/-- The results in one argument, and the option that takes the next one. -/
abbrev Scanned := List Result × Option UInt8

section Scan

variable (table : Table)

/-- The entry of a name: the one that has it, or the one that it abbreviates, if all that it could
abbreviate are alike. -/
def Table.findLong (name : List UInt8) : Option LongOption :=
  match table.long.find? (·.name = name) with
  | some entry => some entry
  | none =>
    match table.long.filter fun entry => name.isPrefixOf entry.name with
    | [] => none
    | entry :: others =>
      if others.all fun other => other.hasArg = entry.hasArg ∧ other.val = entry.val then some entry
      else none

/-- What stands behind `--`. -/
def Table.scanLong (text : List UInt8) : Scanned :=
  let name := text.takeWhile (· ≠ 61)
  match table.findLong name with
  | none => ([.unknown 0], none)
  | some entry =>
    match text.drop name.length with
    | _ :: value =>
      if entry.hasArg then ([.option entry.val (some value)], none)
      else ([.unknown entry.val], none)
    | [] => if entry.hasArg then ([], some entry.val) else ([.option entry.val none], none)

/-- What stands behind a single `-`. -/
def Table.scanShort : List UInt8 → Scanned
  | [] => ([], none)
  | c :: cs =>
    match table.short.lookup c with
    | none => (.unknown c :: (Table.scanShort cs).1, (Table.scanShort cs).2)
    | some false => (.option c none :: (Table.scanShort cs).1, (Table.scanShort cs).2)
    | some true => if cs = [] then ([], some c) else ([.option c (some cs)], none)

/-- One argument; `none` is `--`. -/
def Table.scanArgument : List UInt8 → Option Scanned
  | [45, 45] => none
  | 45 :: 45 :: text => some (table.scanLong text)
  | 45 :: c :: cs => some (table.scanShort (c :: cs))
  | _ => some ([], none)

/-- The calls on the arguments, of which the first belongs to an option or not. -/
def Table.getoptFrom : Option UInt8 → List (List UInt8) → List Result
  | some c, [] => [.unknown c]
  | some c, arg :: args => .option c (some arg) :: Table.getoptFrom none args
  | none, [] => []
  | none, arg :: args =>
    match table.scanArgument arg with
    | none => []
    | some (results, pending) => results ++ Table.getoptFrom pending args

def Table.getopt (args : List (List UInt8)) : List Result := table.getoptFrom none args

end Scan

/-! ### What is written is read -/

/-- Short options without arguments. -/
def Flags (table : Table) (cs : List UInt8) : Prop := ∀ c ∈ cs, table.short.lookup c = some false

/-- The ways to write options, with what they stand for: an operand, a cluster of short options of
which the last may have an argument, joined or not, and a long option without an argument, or with
one, joined or not. -/
inductive Spelled (table : Table) : List Result → List (List UInt8) → Prop
  | operand (arg : List UInt8) : arg.head? ≠ some 45 ∨ arg = [45] → Spelled table [] [arg]
  | flags (cs : List UInt8) : Flags table cs → cs ≠ [] →
      Spelled table (cs.map (.option · none)) [45 :: cs]
  | attached (cs : List UInt8) (c : UInt8) (value : List UInt8) : Flags table cs →
      table.short.lookup c = some true → value ≠ [] →
      Spelled table (cs.map (.option · none) ++ [.option c (some value)]) [45 :: (cs ++ c :: value)]
  | apart (cs : List UInt8) (c : UInt8) (value : List UInt8) : Flags table cs →
      table.short.lookup c = some true →
      Spelled table (cs.map (.option · none) ++ [.option c (some value)]) [45 :: (cs ++ [c]), value]
  | long (name : List UInt8) (entry : LongOption) : table.findLong name = some entry →
      entry.hasArg = false → name ≠ [] → 61 ∉ name →
      Spelled table [.option entry.val none] [45 :: 45 :: name]
  | longAttached (name : List UInt8) (entry : LongOption) (value : List UInt8) :
      table.findLong name = some entry → entry.hasArg = true → 61 ∉ name →
      Spelled table [.option entry.val (some value)] [45 :: 45 :: (name ++ 61 :: value)]
  | longApart (name : List UInt8) (entry : LongOption) (value : List UInt8) :
      table.findLong name = some entry → entry.hasArg = true → name ≠ [] → 61 ∉ name →
      Spelled table [.option entry.val (some value)] [45 :: 45 :: name, value]

section Read

variable {table : Table} {cs name value text : List UInt8} {c : UInt8}

theorem getoptFrom_cons {arg : List UInt8} {args : List (List UInt8)} {scanned : Scanned}
    (h : table.scanArgument arg = some scanned) :
    table.getoptFrom none (arg :: args) = scanned.1 ++ table.getoptFrom scanned.2 args := by
  rw [Table.getoptFrom, h]

theorem scanShort_flags (hflags : Flags table cs) (rest : List UInt8) :
    table.scanShort (cs ++ rest) =
      (cs.map (.option · none) ++ (table.scanShort rest).1, (table.scanShort rest).2) := by
  induction cs with
  | nil => rfl
  | cons c cs ih =>
    have hcs := ih fun d hd => hflags d (List.mem_cons_of_mem _ hd)
    rw [List.cons_append, Table.scanShort, hflags c List.mem_cons_self]
    simp only [hcs, List.map_cons, List.cons_append]

theorem scanShort_attached (hc : table.short.lookup c = some true) (hvalue : value ≠ []) :
    table.scanShort (c :: value) = ([.option c (some value)], none) := by
  rw [Table.scanShort, hc]
  simp only [if_neg hvalue]

theorem scanShort_apart (hc : table.short.lookup c = some true) :
    table.scanShort [c] = ([], some c) := by
  rw [Table.scanShort, hc]
  rfl

theorem scanArgument_short (hne : cs ≠ []) (hdash : cs.head? ≠ some 45) :
    table.scanArgument (45 :: cs) = some (table.scanShort cs) := by
  cases cs with
  | nil => exact absurd rfl hne
  | cons c cs =>
    have hc : c ≠ 45 := fun h => hdash (congrArg some h)
    unfold Table.scanArgument
    split
    · rename_i heq
      exact absurd (List.cons.inj (List.cons.inj heq).2).1 hc
    · rename_i heq
      exact absurd (List.cons.inj (List.cons.inj heq).2).1 hc
    · rename_i heq
      rw [(List.cons.inj heq).2]
    · rename_i hother
      exact absurd rfl (hother c cs)

theorem scanArgument_long (hne : text ≠ []) :
    table.scanArgument (45 :: 45 :: text) = some (table.scanLong text) := by
  cases text with
  | nil => exact absurd rfl hne
  | cons a text => rfl

theorem scanArgument_operand (h : text.head? ≠ some 45 ∨ text = [45]) :
    table.scanArgument text = some ([], none) := by
  rcases h with h | rfl
  · unfold Table.scanArgument
    split
    · exact absurd rfl h
    · exact absurd rfl h
    · exact absurd rfl h
    · rfl
  · rfl

theorem takeWhile_name (hname : 61 ∉ name) (value : List UInt8) :
    name.takeWhile (· ≠ 61) = name ∧ (name ++ 61 :: value).takeWhile (· ≠ 61) = name := by
  have hpos : ∀ a ∈ name, (decide (a ≠ 61)) = true := by
    intro a ha
    rw [decide_eq_true_eq]
    rintro rfl
    exact hname ha
  refine ⟨List.takeWhile_eq_self_iff.mpr hpos, ?_⟩
  rw [List.takeWhile_append_of_pos hpos, List.takeWhile_cons_of_neg (by simp), List.append_nil]

theorem scanLong_name {entry : LongOption} (hname : 61 ∉ name)
    (hfind : table.findLong name = some entry) :
    table.scanLong name =
      if entry.hasArg then ([], some entry.val) else ([.option entry.val none], none) := by
  unfold Table.scanLong
  simp only [(takeWhile_name hname []).1, hfind, List.drop_length]

theorem scanLong_joined {entry : LongOption} (hname : 61 ∉ name)
    (hfind : table.findLong name = some entry) (harg : entry.hasArg = true) :
    table.scanLong (name ++ 61 :: value) = ([.option entry.val (some value)], none) := by
  unfold Table.scanLong
  simp only [(takeWhile_name hname value).2, hfind, List.drop_left, harg, if_true]

/-- **One spelling.** What is behind it is read as if it were not there. -/
theorem Spelled.getoptFrom {results : List Result} {args : List (List UInt8)}
    (hdash : table.short.lookup 45 = none) (h : Spelled table results args)
    (rest : List (List UInt8)) :
    table.getoptFrom none (args ++ rest) = results ++ table.getoptFrom none rest := by
  -- no short option is a dash
  have hflag : ∀ {cs : List UInt8}, Flags table cs → ∀ d ∈ cs, d ≠ 45 := by
    rintro cs hflags d hd rfl
    rw [hflags 45 hd] at hdash
    cases hdash
  have hhead : ∀ {cs rest : List UInt8} {c : UInt8}, Flags table cs →
      table.short.lookup c = some true → (cs ++ c :: rest).head? ≠ some 45 := by
    intro cs rest c hflags hc heq
    cases cs with
    | nil =>
      obtain rfl := Option.some.inj heq
      rw [hc] at hdash
      cases hdash
    | cons d cs => exact hflag hflags d List.mem_cons_self (Option.some.inj heq)
  cases h with
  | operand arg harg => exact getoptFrom_cons (scanArgument_operand harg)
  | flags cs hflags hne =>
    have hcs : cs.head? ≠ some 45 := by
      intro heq
      exact hflag hflags 45 (List.mem_of_head? heq) rfl
    have hscan := scanShort_flags hflags []
    rw [List.append_nil] at hscan
    rw [List.singleton_append, getoptFrom_cons (scanArgument_short hne hcs), hscan]
    simp only [Table.scanShort, List.append_nil]
  | attached cs c value hflags hc hvalue =>
    rw [List.singleton_append,
      getoptFrom_cons (scanArgument_short (by simp) (hhead hflags hc)), scanShort_flags hflags,
      scanShort_attached hc hvalue]
  | apart cs c value hflags hc =>
    rw [List.cons_append, getoptFrom_cons (scanArgument_short (by simp) (hhead hflags hc)),
      scanShort_flags hflags, scanShort_apart hc, List.append_nil, List.append_assoc]
    rfl
  | long name entry hfind harg hne hname =>
    rw [List.singleton_append, getoptFrom_cons (scanArgument_long hne), scanLong_name hname hfind,
      if_neg (by rw [harg]; nofun)]
  | longAttached name entry value hfind harg hname =>
    rw [List.singleton_append, getoptFrom_cons (scanArgument_long (by simp)),
      scanLong_joined hname hfind harg]
  | longApart name entry value hfind harg hne hname =>
    rw [List.cons_append, getoptFrom_cons (scanArgument_long hne), scanLong_name hname hfind,
      if_pos harg]
    rfl

/-- **Options are read as they are written**, in each of the ways and with operands between them, up
to a `--` if there is one. -/
theorem getopt_spelled (hdash : table.short.lookup 45 = none)
    {spellings : List (List Result × List (List UInt8))}
    (h : ∀ spelling ∈ spellings, Spelled table spelling.1 spelling.2) {rest : List (List UInt8)}
    (hrest : rest = [] ∨ rest.head? = some [45, 45]) :
    table.getopt (spellings.flatMap Prod.snd ++ rest) = spellings.flatMap Prod.fst := by
  unfold Table.getopt
  induction spellings with
  | nil =>
    rcases hrest with rfl | hrest
    · rfl
    · obtain ⟨rest, rfl⟩ := List.head?_eq_some_iff.mp hrest
      rfl
  | cons spelling spellings ih =>
    have hspelled := h spelling List.mem_cons_self
    rw [List.flatMap_cons, List.flatMap_cons, List.append_assoc, hspelled.getoptFrom hdash,
      ih fun s hs => h s (List.mem_cons_of_mem _ hs)]

end Read

/-! ### What is read is in the table -/

/-- The table has the option, and gives it an argument exactly if there is one. -/
def Table.Knows (table : Table) (val : UInt8) (optarg : Option (List UInt8)) : Prop :=
  table.short.lookup val = some optarg.isSome ∨
    ∃ entry ∈ table.long, entry.val = val ∧ entry.hasArg = optarg.isSome

section Known

variable {table : Table} {val : UInt8} {optarg : Option (List UInt8)}

theorem findLong_mem {name : List UInt8} {entry : LongOption}
    (h : table.findLong name = some entry) : entry ∈ table.long := by
  unfold Table.findLong at h
  split at h
  · rename_i hfind
    obtain rfl := Option.some.inj h
    exact List.mem_of_find?_eq_some hfind
  · split at h
    · cases h
    · rename_i first others hfilter
      split at h
      · obtain rfl := Option.some.inj h
        have hin : first ∈ table.long.filter fun entry => name.isPrefixOf entry.name := by
          rw [hfilter]
          exact List.mem_cons_self
        exact (List.mem_filter.mp hin).1
      · cases h

/-- What one argument gives, and what it leaves open. -/
def KnownScan (table : Table) (scanned : Scanned) : Prop :=
  (∀ val optarg, .option val optarg ∈ scanned.1 → table.Knows val optarg) ∧
    ∀ val ∈ scanned.2, ∀ arg, table.Knows val (some arg)

theorem knownScan_long (text : List UInt8) : KnownScan table (table.scanLong text) := by
  unfold Table.scanLong
  simp only
  split
  · exact ⟨fun val optarg h => by simp at h, nofun⟩
  · rename_i entry hfind
    have hentry := findLong_mem hfind
    split
    · split
      · rename_i harg
        refine ⟨fun val optarg h => ?_, nofun⟩
        obtain ⟨rfl, rfl⟩ := Result.option.inj (List.mem_singleton.mp h)
        exact Or.inr ⟨entry, hentry, rfl, harg⟩
      · exact ⟨fun val optarg h => by simp at h, nofun⟩
    · split
      · rename_i harg
        refine ⟨fun val optarg h => absurd h List.not_mem_nil, fun val h arg => ?_⟩
        obtain rfl := Option.some.inj h
        exact Or.inr ⟨entry, hentry, rfl, harg⟩
      · rename_i harg
        refine ⟨fun val optarg h => ?_, nofun⟩
        obtain ⟨rfl, rfl⟩ := Result.option.inj (List.mem_singleton.mp h)
        exact Or.inr ⟨entry, hentry, rfl, Bool.eq_false_iff.mpr harg⟩

theorem knownScan_short (cs : List UInt8) : KnownScan table (table.scanShort cs) := by
  induction cs with
  | nil => exact ⟨fun val optarg h => absurd h List.not_mem_nil, nofun⟩
  | cons c cs ih =>
    obtain ⟨hresults, hpending⟩ := ih
    rw [Table.scanShort]
    split
    · refine ⟨fun val optarg h => ?_, hpending⟩
      rcases List.mem_cons.mp h with h | h
      · cases h
      · exact hresults val optarg h
    · rename_i hc
      refine ⟨fun val optarg h => ?_, hpending⟩
      rcases List.mem_cons.mp h with h | h
      · obtain ⟨rfl, rfl⟩ := Result.option.inj h
        exact Or.inl hc
      · exact hresults val optarg h
    · rename_i hc
      split
      · refine ⟨fun val optarg h => absurd h List.not_mem_nil, fun val h arg => ?_⟩
        obtain rfl := Option.some.inj h
        exact Or.inl hc
      · refine ⟨fun val optarg h => ?_, nofun⟩
        obtain ⟨rfl, rfl⟩ := Result.option.inj (List.mem_singleton.mp h)
        exact Or.inl hc

theorem knownScan_argument {arg : List UInt8} {scanned : Scanned}
    (h : table.scanArgument arg = some scanned) : KnownScan table scanned := by
  unfold Table.scanArgument at h
  split at h
  · cases h
  · obtain rfl := Option.some.inj h
    exact knownScan_long _
  · obtain rfl := Option.some.inj h
    exact knownScan_short _
  · obtain rfl := Option.some.inj h
    exact ⟨fun val optarg h => absurd h List.not_mem_nil, nofun⟩

/-- **Only the options of the table are read**, with an argument exactly where it says so. -/
theorem getopt_known {args : List (List UInt8)} (h : .option val optarg ∈ table.getopt args) :
    table.Knows val optarg := by
  suffices key : ∀ pending : Option UInt8, (∀ val ∈ pending, ∀ arg, table.Knows val (some arg)) →
      .option val optarg ∈ table.getoptFrom pending args → table.Knows val optarg from
    key none nofun h
  clear h
  induction args with
  | nil =>
    intro pending hpending h
    cases pending <;> simp [Table.getoptFrom] at h
  | cons arg args ih =>
    intro pending hpending h
    cases pending with
    | some c =>
      rw [Table.getoptFrom] at h
      rcases List.mem_cons.mp h with h | h
      · obtain ⟨rfl, rfl⟩ := Result.option.inj h
        exact hpending val rfl arg
      · exact ih none nofun h
    | none =>
      rw [Table.getoptFrom] at h
      split at h
      · exact absurd h List.not_mem_nil
      · rename_i results pending hscan
        obtain ⟨hresults, hpending'⟩ := knownScan_argument hscan
        rcases List.mem_append.mp h with h | h
        · exact hresults val optarg h
        · exact ih pending hpending' h

end Known

end Getopt
