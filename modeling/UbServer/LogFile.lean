import UbServer.Options
import UbServer.Lib.Runs

/-!
# The log file under several threads

`getLoggerFileDescriptor` of `logger.c` and the write at the end of `logMessage`, executed by any
number of threads on one `LOGGER`. A step is one access to what they share; the rest of the program
opens and closes descriptors in between, and days go by.

* `LogSystem.next`: one step. `die` is `none`.
* `LogSystem.Owned`: who has the lock, and which descriptor is the log's.
* `logDescriptor_owned`: the log has at most one descriptor open, and closes only its own.
* `LogSystem.records_run`: what has been written belongs to the calls that have ended.
* `oneDay_files`: records of one day, from any number of threads.
* `serial_files`: records of any days, one call after the other.
-/

namespace UbServer

open Runs

/-- `getLoggerCurrentFullPath` with the date. -/
def loggerCurrentFullPath (logger : Logger) (date : Bytes) : Bytes :=
  (logger.path ++ loggerFileName date).take (loggerPathMax - 1)

/-- Where a thread stands: outside `logMessage`, or before the next access to what is shared. -/
inductive LogStage where
  | idle
  | compareName
  | reset
  | check
  | lock
  | recheck
  | fullPath
  | close
  | setName
  | openFile
  | setInitialized
  | unlock
  | fetch
  | write
  deriving DecidableEq

/-- The thread has the lock. -/
def LogStage.Inside : LogStage → Bool
  | .recheck | .fullPath | .close | .setName | .openFile | .setInitialized | .unlock => true
  | _ => false

/-- The thread is about to open a log file. -/
def LogStage.Opening : LogStage → Bool
  | .fullPath | .close | .setName | .openFile | .setInitialized => true
  | _ => false

/-- The thread has closed the old log file and not opened the new one. -/
def LogStage.Vacant : LogStage → Bool
  | .setName | .openFile => true
  | _ => false

/-- A thread with its local variables. `begun` is a ledger: the day on which the call began. -/
structure LogThread where
  stage : LogStage
  record : Bytes
  newLoggerFileName : Bytes
  loggerFullPath : Bytes
  fileFd : ℤ
  begun : ℕ

/-- What a descriptor stands for. -/
inductive OpenFile where
  | stderr
  | log (path : Bytes)
  | other
  deriving DecidableEq

/-- What the call of a thread has written: its record, of which the write has taken so many bytes, and
to which log file, if it was one. The call began and ended on the two days. -/
structure LogEntry (n : ℕ) where
  thread : Fin n
  record : Bytes
  count : ℕ
  target : Option Bytes
  begun : ℕ
  ended : ℕ

/-- What got to the file. A write that takes only a part of the record is not repeated. -/
def LogEntry.text {n : ℕ} (entry : LogEntry n) : Bytes := entry.record.take entry.count

/-- The write took the whole record. -/
def LogEntry.Whole {n : ℕ} (entry : LogEntry n) : Prop := entry.record.length ≤ entry.count

instance {n : ℕ} (entry : LogEntry n) : Decidable entry.Whole := inferInstanceAs (Decidable (_ ≤ _))

/-- The state. `written` is a ledger. -/
structure LogSystem (n : ℕ) where
  day : ℕ
  logger : Logger
  lock : Option (Fin n)
  table : ℤ → Option OpenFile
  files : Bytes → Bytes
  threads : Fin n → LogThread
  written : List (LogEntry n)

/-- A day passes, the rest of the program opens or closes a descriptor, a thread calls `logMessage`,
or it makes its next step: `fd` is what `open` returns, `count` the bytes that the write takes. -/
inductive LogAction (n : ℕ) where
  | midnight
  | opened (fd : ℤ)
  | closed (fd : ℤ)
  | call (t : Fin n) (record : Bytes)
  | step (t : Fin n) (fd : ℤ) (count : ℕ)
  deriving DecidableEq

section Steps

variable {n : ℕ} (dateOf : ℕ → Bytes) (s : LogSystem n) (t : Fin n)

def LogSystem.setThread (thread : LogThread) : LogSystem n :=
  { s with threads := Function.update s.threads t thread }

/-- The thread further on. -/
def LogSystem.goto (stage : LogStage) : LogSystem n :=
  s.setThread t { s.threads t with stage }

/-- The log file that a descriptor stands for. -/
def LogSystem.logAt (fd : ℤ) : Option Bytes :=
  match s.table fd with
  | some (.log path) => some path
  | _ => none

/-- The write of the first bytes of the record, at the end of the file. -/
def LogSystem.append (count : ℕ) : LogSystem n :=
  let thread := s.threads t
  let text := thread.record.take count
  let target := s.logAt thread.fileFd
  { s with
    files := fun path => if target = some path then s.files path ++ text else s.files path
    written := s.written ++ [⟨t, thread.record, count, target, thread.begun, s.day⟩] }

/-- `getLoggerFileDescriptor` up to its first access. -/
def LogSystem.call (record : Bytes) : LogSystem n :=
  if s.logger.active = false then
    { s with logger := { s.logger with initialized := true } }.setThread t
      ⟨.write, record, [], [], 2, s.day⟩
  else s.setThread t ⟨.compareName, record, loggerFileName (dateOf s.day), [], 0, s.day⟩

/-- The next step of a thread. That `mkpath` or `open` fails is `die`. -/
def LogSystem.turn (fd : ℤ) (count : ℕ) : Option (LogSystem n) :=
  let thread := s.threads t
  let logger := s.logger
  match thread.stage with
  | .idle => none
  | .compareName =>
    some (s.goto t (if thread.newLoggerFileName = logger.fileName then .check else .reset))
  | .reset => some ({ s with logger := { logger with initialized := false } }.goto t .check)
  | .check => some (s.goto t (if logger.initialized then .fetch else .lock))
  | .lock => if s.lock = none then some ({ s with lock := some t }.goto t .recheck) else none
  | .recheck => some (s.goto t (if logger.initialized then .unlock else .fullPath))
  | .fullPath =>
    some (s.setThread t { thread with
      stage := .close
      loggerFullPath := loggerCurrentFullPath logger (dateOf s.day) })
  | .close =>
    some ({ s with table := Function.update s.table logger.fileFd none }.goto t .setName)
  | .setName =>
    some ({ s with logger := { logger with fileName := thread.newLoggerFileName } }.goto t .openFile)
  | .openFile =>
    if 0 ≤ fd ∧ s.table fd = none then
      some ({ s with
        logger := { logger with fileFd := fd }
        table := Function.update s.table fd (some (.log thread.loggerFullPath)) }.goto t .setInitialized)
    else none
  | .setInitialized => some ({ s with logger := { logger with initialized := true } }.goto t .unlock)
  | .unlock => some ({ s with lock := none }.goto t .fetch)
  | .fetch => some (s.setThread t { thread with stage := .write, fileFd := logger.fileFd })
  | .write => some ((s.append t count).goto t .idle)

/-- One step. -/
def LogSystem.next : LogAction n → Option (LogSystem n)
  | .midnight => some { s with day := s.day + 1 }
  | .opened fd =>
    if 0 ≤ fd ∧ s.table fd = none then
      some { s with table := Function.update s.table fd (some .other) }
    else none
  | .closed fd =>
    if s.table fd = some .other then some { s with table := Function.update s.table fd none }
    else none
  | .call t record => if (s.threads t).stage = .idle then some (s.call dateOf t record) else none
  | .step t fd count => s.turn dateOf t fd count

end Steps

/-- One step, as a step relation. -/
abbrev LogStep {n : ℕ} (dateOf : ℕ → Bytes) (s : LogSystem n) (a : LogAction n) (s' : LogSystem n) :
    Prop := s.next dateOf a = some s'

/-- The state in which the threads start: nothing is logged yet, no log file is open, and
`STDERR_FILENO` is the standard error. -/
structure LogSystem.Fresh {n : ℕ} (s : LogSystem n) : Prop where
  active : s.logger.active = true
  uninitialized : s.logger.initialized = false
  fileFd : s.logger.fileFd = 2
  stderr : s.table 2 = some .stderr
  unopened : ∀ fd path, s.table fd ≠ some (.log path)
  unlocked : s.lock = none
  idle : ∀ t, (s.threads t).stage = .idle
  written : s.written = []

/-! ### The descriptor of the log -/

/-- Where the holder of the lock stands. -/
def LogSystem.holder {n : ℕ} (s : LogSystem n) : LogStage :=
  match s.lock with
  | some t => (s.threads t).stage
  | none => .idle

/-- The log has one descriptor, which `LOGGER.fileFd` is, except while the holder of the lock has
closed it; before the first file is opened it is the standard error. -/
structure DescriptorOwned (logger : Logger) (table : ℤ → Option OpenFile) (holder : LogStage) :
    Prop where
  opening : holder.Opening = true → logger.initialized = false
  vacant : holder.Vacant = true → ∀ fd path, table fd ≠ some (.log path)
  single : ∀ fd path, table fd = some (.log path) → fd = logger.fileFd
  own : holder.Vacant = false → (∃ path, table logger.fileFd = some (.log path)) ∨
    table logger.fileFd = some .stderr ∧ logger.initialized = false ∧ holder ≠ .setInitialized

/-- The lock is held by whoever is behind it, and the descriptor is owned. -/
structure LogSystem.Owned {n : ℕ} (s : LogSystem n) : Prop where
  active : s.logger.active = true
  inside : ∀ t, (s.threads t).stage.Inside = true ↔ s.lock = some t
  descriptor : DescriptorOwned s.logger s.table s.holder

section Descriptor

variable {logger : Logger} {table : ℤ → Option OpenFile} {holder holder' : LogStage} {fd : ℤ}

theorem DescriptorOwned.open_of_initialized (h : DescriptorOwned logger table holder)
    (hinit : logger.initialized = true) : ∃ path, table logger.fileFd = some (.log path) := by
  have hvacant : holder.Vacant = false := by
    cases hv : holder.Vacant with
    | false => rfl
    | true =>
      have hopening : holder.Opening = true := by cases holder <;> first | rfl | cases hv
      rw [h.opening hopening] at hinit
      cases hinit
  rcases h.own hvacant with hlog | ⟨-, hnot, -⟩
  · exact hlog
  · rw [hnot] at hinit
    cases hinit

theorem DescriptorOwned.goto (h : DescriptorOwned logger table holder)
    (hopening : holder'.Opening = true → logger.initialized = false)
    (hvacant : holder'.Vacant = holder.Vacant) (hinit : holder' ≠ .setInitialized) :
    DescriptorOwned logger table holder' := by
  refine ⟨hopening, fun hv => h.vacant (hvacant ▸ hv), h.single, fun hv => ?_⟩
  rcases h.own (hvacant ▸ hv) with hlog | ⟨hstderr, hnot, -⟩
  · exact Or.inl hlog
  · exact Or.inr ⟨hstderr, hnot, hinit⟩

theorem DescriptorOwned.reset (h : DescriptorOwned logger table holder) :
    DescriptorOwned { logger with initialized := false } table holder := by
  refine ⟨fun _ => rfl, h.vacant, h.single, fun hv => ?_⟩
  rcases h.own hv with hlog | ⟨hstderr, -, hi⟩
  · exact Or.inl hlog
  · exact Or.inr ⟨hstderr, rfl, hi⟩

theorem DescriptorOwned.close (h : DescriptorOwned logger table .close) :
    DescriptorOwned logger (Function.update table logger.fileFd none) .setName := by
  have hnone : ∀ fd path, Function.update table logger.fileFd none fd ≠ some (.log path) := by
    intro fd path hlog
    by_cases hfd : fd = logger.fileFd
    · rw [hfd, Function.update_self] at hlog
      cases hlog
    · rw [Function.update_of_ne hfd] at hlog
      exact hfd (h.single fd path hlog)
  exact ⟨fun _ => h.opening rfl, fun _ => hnone, fun fd path hlog => absurd hlog (hnone fd path),
    nofun⟩

theorem DescriptorOwned.setName (h : DescriptorOwned logger table .setName) (fileName : Bytes) :
    DescriptorOwned { logger with fileName } table .openFile :=
  ⟨fun _ => h.opening rfl, fun _ => h.vacant rfl, h.single, nofun⟩

theorem DescriptorOwned.openFile (h : DescriptorOwned logger table .openFile) (path : Bytes) :
    DescriptorOwned { logger with fileFd := fd } (Function.update table fd (some (.log path)))
      .setInitialized := by
  refine ⟨fun _ => h.opening rfl, nofun, fun fd' path' hlog => ?_,
    fun _ => Or.inl ⟨path, Function.update_self ..⟩⟩
  by_contra hfd
  rw [Function.update_of_ne hfd] at hlog
  exact h.vacant rfl fd' path' hlog

theorem DescriptorOwned.setInitialized (h : DescriptorOwned logger table .setInitialized) :
    DescriptorOwned { logger with initialized := true } table .unlock := by
  refine ⟨nofun, nofun, h.single, fun _ => ?_⟩
  rcases h.own rfl with hlog | ⟨-, -, hnot⟩
  · exact Or.inl hlog
  · exact absurd rfl hnot

theorem DescriptorOwned.others (h : DescriptorOwned logger table holder) {entry : Option OpenFile}
    (hentry : ∀ path, entry ≠ some (.log path))
    (hfd : table fd = none ∨ table fd = some .other) :
    DescriptorOwned logger (Function.update table fd entry) holder := by
  have hlogs : ∀ fd' path, Function.update table fd entry fd' = some (.log path) →
      table fd' = some (.log path) := by
    intro fd' path hlog
    by_cases heq : fd' = fd
    · rw [heq, Function.update_self] at hlog
      exact absurd hlog (hentry path)
    · rwa [Function.update_of_ne heq] at hlog
  refine ⟨h.opening, fun hv fd' path hlog => h.vacant hv fd' path (hlogs fd' path hlog),
    fun fd' path hlog => h.single fd' path (hlogs fd' path hlog), fun hv => ?_⟩
  have hother : logger.fileFd ≠ fd := by
    rintro rfl
    rcases h.own hv with ⟨path, hlog⟩ | ⟨hstderr, -⟩
    · rcases hfd with hfree | hother
      · rw [hfree] at hlog
        cases hlog
      · rw [hother] at hlog
        cases hlog
    · rcases hfd with hfree | hother
      · rw [hfree] at hstderr
        cases hstderr
      · rw [hother] at hstderr
        cases hstderr
  rw [Function.update_of_ne hother]
  exact h.own hv

end Descriptor

section Owned

variable {n : ℕ} {dateOf : ℕ → Bytes} {s s' : LogSystem n} {a : LogAction n} {t u : Fin n}
  {thread : LogThread} {stage : LogStage}

@[simp] theorem LogSystem.setThread_self : (s.setThread t thread).threads t = thread :=
  Function.update_self ..

theorem LogSystem.setThread_of_ne (h : u ≠ t) : (s.setThread t thread).threads u = s.threads u :=
  Function.update_of_ne h ..

theorem LogSystem.holder_of_lock (h : s.lock = some t) : s.holder = (s.threads t).stage := by
  unfold LogSystem.holder
  rw [h]

theorem LogSystem.holder_setThread (h : s.lock = some t) :
    (s.setThread t thread).holder = thread.stage := by
  have hholder := LogSystem.holder_of_lock (s := s.setThread t thread) h
  rw [LogSystem.setThread_self] at hholder
  exact hholder

theorem LogSystem.holder_setThread_of_ne (h : s.lock ≠ some t) :
    (s.setThread t thread).holder = s.holder := by
  unfold LogSystem.holder
  cases hlock : s.lock with
  | none =>
    simp only [LogSystem.setThread, hlock]
  | some u =>
    have hut : u ≠ t := by
      rintro rfl
      exact h hlock
    simp only [LogSystem.setThread, hlock, Function.update_of_ne hut]

/-- **A step inside or outside the lock.** What the thread has done to the logger and the table is
owned under its new stage. -/
theorem LogSystem.Owned.setThread (h : s.Owned) {logger : Logger} {table : ℤ → Option OpenFile}
    {files : Bytes → Bytes} {written : List (LogEntry n)}
    (hinside : thread.stage.Inside = (s.threads t).stage.Inside) (hactive : logger.active = true)
    (hdescriptor : DescriptorOwned logger table
      (if (s.threads t).stage.Inside then thread.stage else s.holder)) :
    ({ s with logger, table, files, written }.setThread t thread).Owned := by
  refine ⟨hactive, fun u => ?_, ?_⟩
  · by_cases hut : u = t
    · rw [hut, LogSystem.setThread_self, hinside]
      exact h.inside t
    · rw [LogSystem.setThread_of_ne hut]
      exact h.inside u
  · by_cases hin : (s.threads t).stage.Inside = true
    · rw [if_pos hin] at hdescriptor
      have hlock : s.lock = some t := (h.inside t).mp hin
      rw [LogSystem.holder_setThread (s := { s with logger, table, files, written }) hlock]
      exact hdescriptor
    · rw [if_neg hin] at hdescriptor
      have hlock : s.lock ≠ some t := fun hlock => hin ((h.inside t).mpr hlock)
      rw [LogSystem.holder_setThread_of_ne (s := { s with logger, table, files, written }) hlock]
      exact hdescriptor

theorem LogSystem.Owned.holder_of_inside (h : s.Owned) (hin : (s.threads t).stage.Inside = true) :
    s.holder = (s.threads t).stage := LogSystem.holder_of_lock ((h.inside t).mp hin)

/-- A step that keeps on one side of the lock and touches nothing of the log. -/
theorem LogSystem.Owned.goto (h : s.Owned) {files : Bytes → Bytes} {written : List (LogEntry n)}
    (hinside : thread.stage.Inside = (s.threads t).stage.Inside)
    (hopening : thread.stage.Opening = true → s.logger.initialized = false)
    (hvacant : thread.stage.Vacant = (s.threads t).stage.Vacant)
    (hinit : thread.stage ≠ .setInitialized) :
    ({ s with files, written }.setThread t thread).Owned := by
  have hdescriptor : DescriptorOwned s.logger s.table
      (if (s.threads t).stage.Inside then thread.stage else s.holder) := by
    split
    · rename_i hin
      exact DescriptorOwned.goto ((h.holder_of_inside hin) ▸ h.descriptor) hopening hvacant hinit
    · exact h.descriptor
  exact h.setThread hinside h.active hdescriptor

theorem LogSystem.Owned.lock (h : s.Owned) (hfree : s.lock = none) (thread : LogThread)
    (hstage : thread.stage = .recheck) : ({ s with lock := some t }.setThread t thread).Owned := by
  have hout : ∀ u, (s.threads u).stage.Inside ≠ true := by
    intro u hin
    have hlock := (h.inside u).mp hin
    rw [hfree] at hlock
    cases hlock
  refine ⟨h.active, fun u => ?_, ?_⟩
  · by_cases hut : u = t
    · rw [hut, LogSystem.setThread_self, hstage]
      exact iff_of_true rfl rfl
    · rw [LogSystem.setThread_of_ne hut]
      exact iff_of_false (hout u) fun hlock => hut (Option.some.inj hlock).symm
  · rw [LogSystem.holder_setThread (s := { s with lock := some t }) rfl, hstage]
    have hholder : s.holder = .idle := by
      unfold LogSystem.holder
      rw [hfree]
    have hidle : DescriptorOwned s.logger s.table .idle := hholder ▸ h.descriptor
    exact hidle.goto nofun rfl nofun

theorem LogSystem.Owned.unlock (h : s.Owned) (hin : (s.threads t).stage.Inside = true)
    (thread : LogThread) (hstage : thread.stage = .fetch)
    (hdescriptor : DescriptorOwned s.logger s.table .idle) :
    ({ s with lock := none }.setThread t thread).Owned := by
  have hlock : s.lock = some t := (h.inside t).mp hin
  refine ⟨h.active, fun u => ?_, hdescriptor⟩
  by_cases hut : u = t
  · rw [hut, LogSystem.setThread_self, hstage]
    exact iff_of_false nofun nofun
  · rw [LogSystem.setThread_of_ne hut]
    refine iff_of_false (fun hu => hut ?_) nofun
    exact Option.some.inj (((h.inside u).mp hu).symm.trans hlock)

theorem LogSystem.Owned.turn (h : s.Owned) {fd : ℤ} {count : ℕ}
    (hturn : s.turn dateOf t fd count = some s') : s'.Owned := by
  unfold LogSystem.turn at hturn
  simp only at hturn
  have hheld : (s.threads t).stage.Inside = true →
      DescriptorOwned s.logger s.table (s.threads t).stage :=
    fun hin => (h.holder_of_inside hin) ▸ h.descriptor
  cases hstage : (s.threads t).stage with
  | idle =>
    rw [hstage] at hturn
    cases hturn
  | compareName =>
    simp only [hstage] at hturn
    obtain rfl := Option.some.inj hturn
    split
    · exact h.goto (by rw [hstage]; rfl) nofun (by rw [hstage]; rfl) nofun
    · exact h.goto (by rw [hstage]; rfl) nofun (by rw [hstage]; rfl) nofun
  | reset =>
    simp only [hstage] at hturn
    obtain rfl := Option.some.inj hturn
    refine h.setThread (by rw [hstage]; rfl) h.active ?_
    rw [hstage]
    exact h.descriptor.reset
  | check =>
    simp only [hstage] at hturn
    obtain rfl := Option.some.inj hturn
    cases s.logger.initialized
    · exact h.goto (by rw [hstage]; rfl) nofun (by rw [hstage]; rfl) nofun
    · exact h.goto (by rw [hstage]; rfl) nofun (by rw [hstage]; rfl) nofun
  | lock =>
    simp only [hstage] at hturn
    obtain ⟨hfree, hturn⟩ := Option.ite_none_right_eq_some.mp hturn
    obtain rfl := Option.some.inj hturn
    exact h.lock hfree _ rfl
  | recheck =>
    simp only [hstage] at hturn
    obtain rfl := Option.some.inj hturn
    cases hinit : s.logger.initialized
    · exact h.goto (by rw [hstage]; rfl) (fun _ => hinit) (by rw [hstage]; rfl) nofun
    · exact h.goto (by rw [hstage]; rfl) nofun (by rw [hstage]; rfl) nofun
  | fullPath =>
    simp only [hstage] at hturn
    obtain rfl := Option.some.inj hturn
    rw [hstage] at hheld
    exact h.goto (by rw [hstage]; rfl) (fun _ => (hheld rfl).opening rfl) (by rw [hstage]; rfl) nofun
  | close =>
    simp only [hstage] at hturn
    obtain rfl := Option.some.inj hturn
    rw [hstage] at hheld
    refine h.setThread (by rw [hstage]; rfl) h.active ?_
    rw [hstage]
    exact (hheld rfl).close
  | setName =>
    simp only [hstage] at hturn
    obtain rfl := Option.some.inj hturn
    rw [hstage] at hheld
    refine h.setThread (by rw [hstage]; rfl) h.active ?_
    rw [hstage]
    exact (hheld rfl).setName _
  | openFile =>
    simp only [hstage] at hturn
    obtain ⟨hfd, hturn⟩ := Option.ite_none_right_eq_some.mp hturn
    obtain rfl := Option.some.inj hturn
    rw [hstage] at hheld
    refine h.setThread (by rw [hstage]; rfl) h.active ?_
    rw [hstage]
    exact (hheld rfl).openFile _
  | setInitialized =>
    simp only [hstage] at hturn
    obtain rfl := Option.some.inj hturn
    rw [hstage] at hheld
    refine h.setThread (by rw [hstage]; rfl) h.active ?_
    rw [hstage]
    exact (hheld rfl).setInitialized
  | unlock =>
    simp only [hstage] at hturn
    obtain rfl := Option.some.inj hturn
    rw [hstage] at hheld
    exact h.unlock (by rw [hstage]; rfl) _ rfl ((hheld rfl).goto nofun rfl nofun)
  | fetch =>
    simp only [hstage] at hturn
    obtain rfl := Option.some.inj hturn
    exact h.goto (by rw [hstage]; rfl) nofun (by rw [hstage]; rfl) nofun
  | write =>
    simp only [hstage] at hturn
    obtain rfl := Option.some.inj hturn
    exact h.goto (by rw [hstage]; rfl) nofun (by rw [hstage]; rfl) nofun

theorem LogSystem.Owned.step (h : s.Owned) (hstep : LogStep dateOf s a s') : s'.Owned := by
  unfold LogStep LogSystem.next at hstep
  cases a with
  | midnight =>
    obtain rfl := Option.some.inj hstep
    exact ⟨h.active, h.inside, h.descriptor⟩
  | opened fd =>
    obtain ⟨⟨-, hfree⟩, hstep⟩ := Option.ite_none_right_eq_some.mp hstep
    obtain rfl := Option.some.inj hstep
    exact ⟨h.active, h.inside, h.descriptor.others nofun (Or.inl hfree)⟩
  | closed fd =>
    obtain ⟨hother, hstep⟩ := Option.ite_none_right_eq_some.mp hstep
    obtain rfl := Option.some.inj hstep
    exact ⟨h.active, h.inside, h.descriptor.others nofun (Or.inr hother)⟩
  | call t record =>
    obtain ⟨hidle, hstep⟩ := Option.ite_none_right_eq_some.mp hstep
    obtain rfl := Option.some.inj hstep
    unfold LogSystem.call
    rw [if_neg (by rw [h.active]; nofun)]
    exact h.goto (by rw [hidle]; rfl) nofun (by rw [hidle]; rfl) nofun
  | step t fd count => exact h.turn hstep

theorem LogSystem.Fresh.owned (h : s.Fresh) : s.Owned := by
  have hholder : s.holder = .idle := by
    unfold LogSystem.holder
    rw [h.unlocked]
  refine ⟨h.active, fun t => ?_, ?_⟩
  · rw [h.idle t, h.unlocked]
    exact iff_of_false nofun nofun
  · rw [hholder]
    refine ⟨nofun, nofun, fun fd path hlog => absurd hlog (h.unopened fd path), fun _ => Or.inr ?_⟩
    exact ⟨h.fileFd ▸ h.stderr, h.uninitialized, nofun⟩

/-- The only descriptor of the rest of the program that a step takes away is one that the rest of the
program closes. -/
theorem LogSystem.Owned.other_kept (h : s.Owned) (hstep : LogStep dateOf s a s') {fd : ℤ}
    (hother : s.table fd = some .other) : s'.table fd = some .other ∨ a = .closed fd := by
  -- a free number is another one
  have hopened : ∀ {fd' : ℤ} {entry : Option OpenFile}, s.table fd' = none →
      Function.update s.table fd' entry fd = some .other := by
    intro fd' entry hfree
    have hne : fd ≠ fd' := by
      rintro rfl
      rw [hfree] at hother
      cases hother
    rwa [Function.update_of_ne hne]
  unfold LogStep LogSystem.next at hstep
  cases a with
  | midnight =>
    obtain rfl := Option.some.inj hstep
    exact Or.inl hother
  | opened fd' =>
    obtain ⟨⟨-, hfree⟩, hstep⟩ := Option.ite_none_right_eq_some.mp hstep
    obtain rfl := Option.some.inj hstep
    exact Or.inl (hopened hfree)
  | closed fd' =>
    obtain ⟨-, hstep⟩ := Option.ite_none_right_eq_some.mp hstep
    obtain rfl := Option.some.inj hstep
    by_cases hfd : fd = fd'
    · exact Or.inr (hfd ▸ rfl)
    · refine Or.inl ?_
      simp only [Function.update_of_ne hfd]
      exact hother
  | call t record =>
    obtain ⟨-, hstep⟩ := Option.ite_none_right_eq_some.mp hstep
    obtain rfl := Option.some.inj hstep
    unfold LogSystem.call
    rw [if_neg (by rw [h.active]; nofun)]
    exact Or.inl hother
  | step t fd' count =>
    refine Or.inl ?_
    simp only [LogSystem.turn] at hstep
    cases hstage : (s.threads t).stage with
    | close =>
      simp only [hstage] at hstep
      obtain rfl := Option.some.inj hstep
      have hin : (s.threads t).stage.Inside = true := by
        rw [hstage]
        rfl
      have hheld := (h.holder_of_inside hin) ▸ h.descriptor
      rw [hstage] at hheld
      have hne : fd ≠ s.logger.fileFd := by
        rintro rfl
        rcases hheld.own rfl with ⟨path, hlog⟩ | ⟨hstderr, -⟩
        · rw [hother] at hlog
          cases hlog
        · rw [hother] at hstderr
          cases hstderr
      change Function.update s.table s.logger.fileFd none fd = some .other
      rwa [Function.update_of_ne hne]
    | openFile =>
      simp only [hstage] at hstep
      obtain ⟨⟨-, hfree⟩, hstep⟩ := Option.ite_none_right_eq_some.mp hstep
      obtain rfl := Option.some.inj hstep
      exact hopened hfree
    | lock =>
      simp only [hstage] at hstep
      obtain ⟨-, hstep⟩ := Option.ite_none_right_eq_some.mp hstep
      obtain rfl := Option.some.inj hstep
      exact hother
    | idle =>
      rw [hstage] at hstep
      cases hstep
    | _ =>
      simp only [hstage] at hstep
      obtain rfl := Option.some.inj hstep
      exact hother

/-- **The descriptor of the log.** However the threads, the days and the rest of the program take
turns: at most one log file is open, it is that of `LOGGER.fileFd` whenever `LOGGER.initialized` is
set, one thread at a time is between the lock and the unlock, and no step of `logMessage` closes a
descriptor of the rest of the program. -/
theorem logDescriptor_owned {h : List (Transition (LogSystem n) (LogAction n))} {s₀ : LogSystem n}
    (hstart : s₀.Fresh) (hr : Run (LogStep dateOf) s₀ h s) :
    (∀ fd fd' path path', s.table fd = some (.log path) → s.table fd' = some (.log path') →
      fd = fd') ∧
    (s.logger.initialized = true → ∃ path, s.table s.logger.fileFd = some (.log path)) ∧
    (∀ t u, (s.threads t).stage.Inside = true → (s.threads u).stage.Inside = true → t = u) ∧
    ∀ e ∈ h, ∀ fd, e.pre.table fd = some .other →
      e.post.table fd = some .other ∨ e.act = .closed fd := by
  have howned : s.Owned := hr.invariant hstart.owned fun _ _ _ hs hi => hi.step hs
  refine ⟨fun fd fd' path path' hfd hfd' => ?_, howned.descriptor.open_of_initialized,
    fun t u ht hu => ?_, ?_⟩
  · exact (howned.descriptor.single fd path hfd).trans (howned.descriptor.single fd' path' hfd').symm
  · exact Option.some.inj (((howned.inside t).mp ht).symm.trans ((howned.inside u).mp hu))
  · have hfree : Guarded (fun _ _ => True) h := fun _ _ => trivial
    exact hr.forall_steps hstart.owned (fun _ _ _ hs _ hi => hi.step hs) hfree
      fun s a t hs _ hi fd hother => hi.other_kept hs hother

end Owned

def leapDates (day : ℕ) : Bytes := if day = 0 then bytes "2024-02-29" else bytes "2024-03-01"

/-- A server that logs to `/tmp/`, before the first record. -/
def tmpLogSystem (n : ℕ) : LogSystem n where
  day := 0
  logger :=
    { initialized := false
      active := true
      path := bytes "/tmp/"
      fileName := bytes "2024-02-29.log"
      fileFd := 2 }
  lock := none
  table := fun fd => if fd = 2 then some .stderr else if fd = 3 then some .other else none
  files := fun _ => []
  threads := fun _ => ⟨.idle, [], [], [], 0, 0⟩
  written := []

theorem tmpLogSystem_fresh (n : ℕ) : (tmpLogSystem n).Fresh where
  active := rfl
  uninitialized := rfl
  fileFd := rfl
  stderr := rfl
  unopened := by
    intro fd path
    unfold tmpLogSystem
    simp only
    split
    · nofun
    · split <;> nofun
  unlocked := rfl
  idle := fun _ => rfl
  written := rfl

/-- Two threads log their first records at the same time. -/
def firstRecords : List (LogAction 2) :=
  [.call firstThread (bytes "a\n"), .call secondThread (bytes "b\n"), .step firstThread 0 0,
    .step secondThread 0 0, .step firstThread 0 0, .step secondThread 0 0, .step firstThread 0 0,
    .step firstThread 0 0, .step firstThread 0 0, .step firstThread 0 0, .step firstThread 0 0,
    .step firstThread 2 0, .step firstThread 0 0, .step firstThread 0 0, .step secondThread 0 0,
    .step secondThread 0 0, .step secondThread 0 0, .step secondThread 0 0, .step secondThread 0 2,
    .step firstThread 0 0, .step firstThread 0 2]

theorem logDescriptor_owned_firstRecords : ∃ h s,
    Run (LogStep leapDates) (tmpLogSystem 2) h s ∧
      s.table 2 = some (.log (bytes "/tmp/2024-02-29.log")) ∧
      (∀ fd path, s.table fd = some (.log path) → fd = 2) ∧
      ∀ e ∈ h, ∀ fd, e.pre.table fd = some .other →
        e.post.table fd = some .other ∨ e.act = .closed fd := by
  obtain ⟨h, s, hr, hlog⟩ := exists_run_of_any (LogSystem.next leapDates) (tmpLogSystem 2)
    firstRecords (p := fun s => s.table 2 = some (.log (bytes "/tmp/2024-02-29.log")))
    (by decide +kernel)
  rw [decide_eq_true_eq] at hlog
  obtain ⟨hone, -, -, hothers⟩ := logDescriptor_owned (tmpLogSystem_fresh 2) hr
  exact ⟨h, s, hr, hlog, fun fd path hfd => hone fd 2 path _ hfd hlog, hothers⟩

/-! ### What is in the files -/

/-- The record of a call of the thread. -/
def LogAction.recordOf {n : ℕ} (t : Fin n) : LogAction n → Option Bytes
  | .call u record => if u = t then some record else none
  | _ => none

/-- The records that a thread has written, in the order of its calls. -/
def LogSystem.writtenBy {n : ℕ} (s : LogSystem n) (t : Fin n) : List Bytes :=
  (s.written.filter fun entry => entry.thread = t).map LogEntry.record

/-- The record of the call that a thread is in. -/
def LogSystem.pending {n : ℕ} (s : LogSystem n) (t : Fin n) : List Bytes :=
  if (s.threads t).stage = .idle then [] else [(s.threads t).record]

/-- What has been written to a file. -/
def LogSystem.textOf {n : ℕ} (s : LogSystem n) (path : Bytes) : Bytes :=
  (s.written.filter fun entry => entry.target = some path).flatMap LogEntry.text

section Files

variable {n : ℕ} {dateOf : ℕ → Bytes} {s s' : LogSystem n} {a : LogAction n} {t : Fin n}
  {path : Bytes}

theorem LogSystem.append_files (count : ℕ) :
    ∃ text, (s.append t count).files path = s.files path ++ text ∧
      (s.append t count).textOf path = s.textOf path ++ text := by
  by_cases htarget : s.logAt (s.threads t).fileFd = some path
  · refine ⟨(s.threads t).record.take count, if_pos htarget, ?_⟩
    unfold LogSystem.textOf LogSystem.append
    rw [List.filter_append, List.filter_cons_of_pos (by simp [htarget]), List.filter_nil,
      List.flatMap_append, List.flatMap_singleton]
    rfl
  · refine ⟨[], ?_, ?_⟩
    · exact (if_neg htarget).trans (List.append_nil _).symm
    · unfold LogSystem.textOf LogSystem.append
      rw [List.filter_append, List.filter_cons_of_neg (by simp [htarget]), List.filter_nil,
      List.append_nil, List.append_nil]

/-- A step of a call writes its record and ends the call, or writes nothing and the call goes on. -/
theorem LogSystem.turn_inv {fd : ℤ} {count : ℕ} (hturn : s.turn dateOf t fd count = some s') :
    (s.threads t).stage = .write ∧ s' = (s.append t count).goto t .idle ∨
    s'.files = s.files ∧ s'.written = s.written ∧ (s.threads t).stage ≠ .idle ∧
      ∃ thread, s'.threads = Function.update s.threads t thread ∧
        thread.record = (s.threads t).record ∧ thread.stage ≠ .idle := by
  unfold LogSystem.turn at hturn
  simp only at hturn
  cases hstage : (s.threads t).stage with
  | idle =>
    rw [hstage] at hturn
    cases hturn
  | write =>
    simp only [hstage] at hturn
    exact Or.inl ⟨rfl, (Option.some.inj hturn).symm⟩
  | lock | openFile =>
    simp only [hstage] at hturn
    obtain ⟨-, hturn⟩ := Option.ite_none_right_eq_some.mp hturn
    obtain rfl := Option.some.inj hturn
    exact Or.inr ⟨rfl, rfl, nofun, _, rfl, rfl, nofun⟩
  | compareName | check | recheck =>
    simp only [hstage] at hturn
    obtain rfl := Option.some.inj hturn
    refine Or.inr ⟨rfl, rfl, nofun, _, rfl, rfl, ?_⟩
    dsimp only
    split <;> nofun
  | _ =>
    simp only [hstage] at hturn
    obtain rfl := Option.some.inj hturn
    exact Or.inr ⟨rfl, rfl, nofun, _, rfl, rfl, nofun⟩

theorem LogSystem.call_inv (dateOf : ℕ → Bytes) (s : LogSystem n) (t : Fin n) (record : Bytes) :
    (s.call dateOf t record).files = s.files ∧ (s.call dateOf t record).written = s.written ∧
      ∃ thread, (s.call dateOf t record).threads = Function.update s.threads t thread ∧
        thread.record = record ∧ thread.stage ≠ .idle := by
  unfold LogSystem.call
  split
  · exact ⟨rfl, rfl, _, rfl, rfl, nofun⟩
  · exact ⟨rfl, rfl, _, rfl, rfl, nofun⟩

theorem LogSystem.step_files (hstep : LogStep dateOf s a s') (path : Bytes) :
    ∃ text, s'.files path = s.files path ++ text ∧ s'.textOf path = s.textOf path ++ text := by
  have hkept : s'.files = s.files → s'.written = s.written →
      ∃ text, s'.files path = s.files path ++ text ∧ s'.textOf path = s.textOf path ++ text := by
    intro hfiles hwritten
    refine ⟨[], ?_, ?_⟩
    · rw [hfiles, List.append_nil]
    · rw [LogSystem.textOf, hwritten, List.append_nil, LogSystem.textOf]
  unfold LogStep LogSystem.next at hstep
  cases a with
  | midnight =>
    obtain rfl := Option.some.inj hstep
    exact hkept rfl rfl
  | opened fd =>
    obtain ⟨-, hstep⟩ := Option.ite_none_right_eq_some.mp hstep
    obtain rfl := Option.some.inj hstep
    exact hkept rfl rfl
  | closed fd =>
    obtain ⟨-, hstep⟩ := Option.ite_none_right_eq_some.mp hstep
    obtain rfl := Option.some.inj hstep
    exact hkept rfl rfl
  | call t record =>
    obtain ⟨-, hstep⟩ := Option.ite_none_right_eq_some.mp hstep
    obtain rfl := Option.some.inj hstep
    obtain ⟨hfiles, hwritten, -⟩ := s.call_inv dateOf t record
    exact hkept hfiles hwritten
  | step t fd count =>
    rcases LogSystem.turn_inv hstep with ⟨-, rfl⟩ | ⟨hfiles, hwritten, -⟩
    · exact LogSystem.append_files count
    · exact hkept hfiles hwritten

/-- What a thread has written or is about to write changes with its calls only. -/
theorem LogSystem.step_records (hstep : LogStep dateOf s a s') (u : Fin n) :
    s'.writtenBy u ++ s'.pending u = s.writtenBy u ++ s.pending u ++ (a.recordOf u).toList := by
  have hkept : s'.written = s.written → s'.threads u = s.threads u → a.recordOf u = none →
      s'.writtenBy u ++ s'.pending u = s.writtenBy u ++ s.pending u ++ (a.recordOf u).toList := by
    intro hwritten hthreads hnone
    unfold LogSystem.writtenBy LogSystem.pending
    rw [hwritten, hthreads, hnone, Option.toList_none, List.append_nil]
  unfold LogStep LogSystem.next at hstep
  cases a with
  | midnight =>
    obtain rfl := Option.some.inj hstep
    exact hkept rfl rfl rfl
  | opened fd =>
    obtain ⟨-, hstep⟩ := Option.ite_none_right_eq_some.mp hstep
    obtain rfl := Option.some.inj hstep
    exact hkept rfl rfl rfl
  | closed fd =>
    obtain ⟨-, hstep⟩ := Option.ite_none_right_eq_some.mp hstep
    obtain rfl := Option.some.inj hstep
    exact hkept rfl rfl rfl
  | call t record =>
    obtain ⟨hidle, hstep⟩ := Option.ite_none_right_eq_some.mp hstep
    obtain rfl := Option.some.inj hstep
    obtain ⟨-, hwritten, thread, hthreads, hrecord, hbusy⟩ := s.call_inv dateOf t record
    by_cases hu : u = t
    · subst hu
      have hnew : (LogAction.call u record).recordOf u = some record := if_pos rfl
      unfold LogSystem.writtenBy LogSystem.pending
      rw [hwritten, hthreads, Function.update_self, if_neg hbusy, if_pos hidle, hrecord, hnew,
        List.append_nil, Option.toList_some]
    · refine hkept hwritten ?_ (if_neg (Ne.symm hu))
      rw [hthreads, Function.update_of_ne hu]
  | step t fd count =>
    rcases LogSystem.turn_inv hstep with
      ⟨hwrite, rfl⟩ | ⟨-, hwritten, hbusy, thread, hthreads, hrecord, hbusy'⟩
    · -- the record that was pending is written
      by_cases hu : u = t
      · subst hu
        have hpending : s.pending u = [(s.threads u).record] := by
          unfold LogSystem.pending
          rw [if_neg (by rw [hwrite]; nofun)]
        have hidle : ((s.append u count).goto u .idle).pending u = [] := by
          unfold LogSystem.pending LogSystem.goto
          rw [LogSystem.setThread_self, if_pos rfl]
        have hnew : ((s.append u count).goto u .idle).writtenBy u =
            s.writtenBy u ++ [(s.threads u).record] := by
          unfold LogSystem.writtenBy LogSystem.goto LogSystem.setThread LogSystem.append
          simp only [List.filter_append, List.map_append]
          rw [List.filter_cons_of_pos (by simp), List.filter_nil]
          rfl
        rw [hpending, hidle, hnew, List.append_nil]
        exact (List.append_nil _).symm
      · have hsame : ((s.append t count).goto t .idle).writtenBy u = s.writtenBy u := by
          unfold LogSystem.writtenBy LogSystem.goto LogSystem.setThread LogSystem.append
          simp only [List.filter_append, List.map_append]
          rw [List.filter_cons_of_neg (by simpa using Ne.symm hu), List.filter_nil, List.map_nil,
            List.append_nil]
        have hothers : ((s.append t count).goto t .idle).pending u = s.pending u := by
          unfold LogSystem.pending LogSystem.goto
          rw [LogSystem.setThread_of_ne hu]
          rfl
        rw [hsame, hothers]
        exact (List.append_nil _).symm
    · by_cases hu : u = t
      · subst hu
        unfold LogSystem.writtenBy LogSystem.pending
        rw [hwritten, hthreads, Function.update_self, if_neg hbusy', if_neg hbusy, hrecord]
        exact (List.append_nil _).symm
      · refine hkept hwritten ?_ rfl
        rw [hthreads, Function.update_of_ne hu]

/-- **Every call that has ended has written its record**, once and in the order of the calls of its
thread; the record of a call in progress is still to be written. -/
theorem LogSystem.records_run {h : List (Transition (LogSystem n) (LogAction n))} {s₀ : LogSystem n}
    (hstart : s₀.Fresh) (hr : Run (LogStep dateOf) s₀ h s) (u : Fin n) :
    (h.filterMap fun e => e.act.recordOf u) = s.writtenBy u ++ s.pending u := by
  induction hr with
  | nil =>
    unfold LogSystem.writtenBy LogSystem.pending
    rw [hstart.written, if_pos (hstart.idle u)]
    rfl
  | @snoc h s s' a _ hstep ih =>
    rw [List.filterMap_append, ih, LogSystem.step_records hstep u, List.filterMap_cons,
      List.filterMap_nil]
    cases a.recordOf u <;> rfl

/-- The file is what it was, with what has been written to it. -/
def LogSystem.Accounted {n : ℕ} (path old : Bytes) (s : LogSystem n) : Prop :=
  s.files path = old ++ s.textOf path

theorem LogSystem.files_run {h : List (Transition (LogSystem n) (LogAction n))} {s₀ : LogSystem n}
    (hstart : s₀.written = []) (hr : Run (LogStep dateOf) s₀ h s) (path : Bytes) :
    s.Accounted path (s₀.files path) := by
  refine hr.invariant ?_ fun s a s' hstep hfiles => ?_
  · unfold LogSystem.Accounted LogSystem.textOf
    rw [hstart]
    exact (List.append_nil _).symm
  · obtain ⟨text, hnew, htext⟩ := LogSystem.step_files hstep path
    unfold LogSystem.Accounted at hfiles ⊢
    rw [hnew, htext, hfiles, List.append_assoc]

theorem flatMap_text {entries : List (LogEntry n)} (h : ∀ entry ∈ entries, entry.Whole) :
    entries.flatMap LogEntry.text = entries.flatMap LogEntry.record :=
  List.flatMap_congr fun entry hentry => List.take_of_length_le (h entry hentry)

end Files

/-! ### One day -/

/-- The thread is past the check, or has just opened the file. -/
def LogStage.Done : LogStage → Bool
  | .unlock | .fetch | .write => true
  | _ => false

/-- A thread on the day of the file `file`: it has the name of the day, goes past the check only when
the log is initialized, and then has its descriptor. -/
structure OneDayThread (date file : Bytes) (logger : Logger) (thread : LogThread) : Prop where
  name : thread.stage ≠ .idle → thread.newLoggerFileName = loggerFileName date
  uptodate : thread.stage ≠ .reset
  fullPath : thread.stage = .close ∨ thread.stage = .setName ∨ thread.stage = .openFile →
    thread.loggerFullPath = file
  done : thread.stage.Done = true → logger.initialized = true
  fetched : thread.stage = .write → thread.fileFd = logger.fileFd

/-- On one day, nothing but the file of the day is open and written. -/
structure LogSystem.OneDay {n : ℕ} (dateOf : ℕ → Bytes) (today : ℕ) (file : Bytes)
    (s : LogSystem n) : Prop where
  owned : s.Owned
  day : s.day = today
  threads : ∀ t, OneDayThread (dateOf today) file s.logger (s.threads t)
  name : s.logger.fileName = loggerFileName (dateOf today)
  fullPath : loggerCurrentFullPath s.logger (dateOf today) = file
  logs : ∀ fd path, s.table fd = some (.log path) → path = file
  written : ∀ entry ∈ s.written, entry.target = some file

section OneDay

variable {n : ℕ} {dateOf : ℕ → Bytes} {s s' : LogSystem n} {a : LogAction n} {t : Fin n}
  {today : ℕ} {date file : Bytes} {logger logger' : Logger} {thread thread' : LogThread}

theorem OneDayThread.congr (h : OneDayThread date file logger thread)
    (hinit : logger.initialized = true → logger'.initialized = true)
    (hfd : logger.initialized = true → logger'.fileFd = logger.fileFd) :
    OneDayThread date file logger' thread where
  name := h.name
  uptodate := h.uptodate
  fullPath := h.fullPath
  done := fun hdone => hinit (h.done hdone)
  fetched := fun hwrite => by
    have hdone : thread.stage.Done = true := by
      rw [hwrite]
      rfl
    exact (h.fetched hwrite).trans (hfd (h.done hdone)).symm

theorem OneDayThread.goto (h : OneDayThread date file logger thread) {stage : LogStage}
    (hold : thread.stage ≠ .idle) (hnew : stage ≠ .reset)
    (hpath : stage = .close ∨ stage = .setName ∨ stage = .openFile → thread.loggerFullPath = file)
    (hdone : stage.Done = true → logger.initialized = true) (hwrite : stage ≠ .write) :
    OneDayThread date file logger { thread with stage } where
  name := fun _ => h.name hold
  uptodate := hnew
  fullPath := hpath
  done := hdone
  fetched := fun h => absurd h hwrite

theorem LogSystem.OneDay.setThread (h : s.OneDay dateOf today file) {logger : Logger}
    {table : ℤ → Option OpenFile} {lock : Option (Fin n)}
    (howned : ({ s with logger, table, lock }.setThread t thread).Owned)
    (hthread : OneDayThread (dateOf today) file logger thread)
    (hinit : s.logger.initialized = true → logger.initialized = true)
    (hfd : s.logger.initialized = true → logger.fileFd = s.logger.fileFd)
    (hname : logger.fileName = loggerFileName (dateOf today)) (hpath : logger.path = s.logger.path)
    (hlogs : ∀ fd path, table fd = some (.log path) → path = file) :
    ({ s with logger, table, lock }.setThread t thread).OneDay dateOf today file := by
  refine ⟨howned, h.day, fun u => ?_, hname, ?_, hlogs, h.written⟩
  · by_cases hut : u = t
    · rw [hut, LogSystem.setThread_self]
      exact hthread
    · rw [LogSystem.setThread_of_ne hut]
      exact (h.threads u).congr hinit hfd
  · rw [← h.fullPath]
    unfold loggerCurrentFullPath
    rw [← hpath]
    rfl

theorem LogSystem.OneDay.logAt (h : s.OneDay dateOf today file) (hwrite : (s.threads t).stage = .write) :
    s.logAt (s.threads t).fileFd = some file := by
  have hdone : (s.threads t).stage.Done = true := by
    rw [hwrite]
    rfl
  obtain ⟨path, hlog⟩ := h.owned.descriptor.open_of_initialized ((h.threads t).done hdone)
  obtain rfl := h.logs _ path hlog
  unfold LogSystem.logAt
  rw [(h.threads t).fetched hwrite, hlog]

theorem LogSystem.OneDay.turn (h : s.OneDay dateOf today file) {fd : ℤ} {count : ℕ}
    (hturn : s.turn dateOf t fd count = some s') : s'.OneDay dateOf today file := by
  have howned := h.owned.turn hturn
  have hthread := h.threads t
  unfold LogSystem.turn at hturn
  simp only at hturn
  cases hstage : (s.threads t).stage with
  | idle =>
    rw [hstage] at hturn
    cases hturn
  | compareName =>
    simp only [hstage] at hturn
    obtain rfl := Option.some.inj hturn
    have hsame : (s.threads t).newLoggerFileName = s.logger.fileName :=
      (hthread.name (by rw [hstage]; nofun)).trans h.name.symm
    rw [if_pos hsame] at howned ⊢
    exact h.setThread howned (hthread.goto (by rw [hstage]; nofun) nofun nofun nofun nofun) id
      (fun _ => rfl) h.name rfl h.logs
  | reset => exact absurd hstage hthread.uptodate
  | check =>
    simp only [hstage] at hturn
    obtain rfl := Option.some.inj hturn
    refine h.setThread howned ?_ id (fun _ => rfl) h.name rfl h.logs
    cases hinit : s.logger.initialized
    · exact hthread.goto (by rw [hstage]; nofun) nofun nofun nofun nofun
    · exact hthread.goto (by rw [hstage]; nofun) nofun nofun (fun _ => hinit) nofun
  | lock =>
    simp only [hstage] at hturn
    obtain ⟨-, hturn⟩ := Option.ite_none_right_eq_some.mp hturn
    obtain rfl := Option.some.inj hturn
    exact h.setThread howned (hthread.goto (by rw [hstage]; nofun) nofun nofun nofun nofun) id
      (fun _ => rfl) h.name rfl h.logs
  | recheck =>
    simp only [hstage] at hturn
    obtain rfl := Option.some.inj hturn
    refine h.setThread howned ?_ id (fun _ => rfl) h.name rfl h.logs
    cases hinit : s.logger.initialized
    · exact hthread.goto (by rw [hstage]; nofun) nofun nofun nofun nofun
    · exact hthread.goto (by rw [hstage]; nofun) nofun nofun (fun _ => hinit) nofun
  | fullPath =>
    simp only [hstage] at hturn
    obtain rfl := Option.some.inj hturn
    refine h.setThread howned ?_ id (fun _ => rfl) h.name rfl h.logs
    exact ⟨fun _ => hthread.name (by rw [hstage]; nofun), nofun, fun _ => h.day ▸ h.fullPath, nofun, nofun⟩
  | close =>
    simp only [hstage] at hturn
    obtain rfl := Option.some.inj hturn
    refine h.setThread howned
      (hthread.goto (by rw [hstage]; nofun) nofun (fun _ => hthread.fullPath (Or.inl hstage)) nofun
        nofun) id (fun _ => rfl) h.name rfl fun fd path hlog => ?_
    by_cases hfd : fd = s.logger.fileFd
    · rw [hfd, Function.update_self] at hlog
      cases hlog
    · rw [Function.update_of_ne hfd] at hlog
      exact h.logs fd path hlog
  | setName =>
    simp only [hstage] at hturn
    obtain rfl := Option.some.inj hturn
    have hgone : OneDayThread (dateOf today) file s.logger
        { s.threads t with stage := .openFile } :=
      hthread.goto (by rw [hstage]; nofun) nofun
        (fun _ => hthread.fullPath (Or.inr (Or.inl hstage))) nofun nofun
    exact h.setThread howned (hgone.congr id fun _ => rfl) id (fun _ => rfl)
      (hthread.name (by rw [hstage]; nofun)) rfl h.logs
  | openFile =>
    simp only [hstage] at hturn
    obtain ⟨-, hturn⟩ := Option.ite_none_right_eq_some.mp hturn
    obtain rfl := Option.some.inj hturn
    -- nobody has a descriptor yet
    have hnot : s.logger.initialized = false := by
      have hin : (s.threads t).stage.Inside = true := by
        rw [hstage]
        rfl
      have hheld := (h.owned.holder_of_inside hin) ▸ h.owned.descriptor
      rw [hstage] at hheld
      exact hheld.opening rfl
    have hnever : ∀ {p : Prop}, s.logger.initialized = true → p := by
      intro p hinit
      rw [hnot] at hinit
      cases hinit
    have hgone : OneDayThread (dateOf today) file s.logger
        { s.threads t with stage := .setInitialized } :=
      hthread.goto (by rw [hstage]; nofun) nofun nofun nofun nofun
    refine h.setThread howned (hgone.congr id hnever) id hnever h.name rfl fun fd' path hlog => ?_
    by_cases hfd : fd' = fd
    · rw [hfd, Function.update_self] at hlog
      obtain rfl := OpenFile.log.inj (Option.some.inj hlog)
      exact hthread.fullPath (Or.inr (Or.inr hstage))
    · rw [Function.update_of_ne hfd] at hlog
      exact h.logs fd' path hlog
  | setInitialized =>
    simp only [hstage] at hturn
    obtain rfl := Option.some.inj hturn
    refine h.setThread howned ?_ (fun _ => rfl) (fun _ => rfl) h.name rfl h.logs
    exact ⟨fun _ => hthread.name (by rw [hstage]; nofun), nofun, nofun, fun _ => rfl, nofun⟩
  | unlock =>
    simp only [hstage] at hturn
    obtain rfl := Option.some.inj hturn
    exact h.setThread howned (hthread.goto (by rw [hstage]; nofun) nofun nofun
      (fun _ => hthread.done (by rw [hstage]; rfl)) nofun) id (fun _ => rfl) h.name rfl h.logs
  | fetch =>
    simp only [hstage] at hturn
    obtain rfl := Option.some.inj hturn
    refine h.setThread howned ?_ id (fun _ => rfl) h.name rfl h.logs
    exact ⟨fun _ => hthread.name (by rw [hstage]; nofun), nofun, nofun,
      fun _ => hthread.done (by rw [hstage]; rfl), fun _ => rfl⟩
  | write =>
    simp only [hstage] at hturn
    obtain rfl := Option.some.inj hturn
    have hidle : (s.goto t .idle).OneDay dateOf today file :=
      h.setThread (h.owned.goto (by rw [hstage]; rfl) nofun (by rw [hstage]; rfl) nofun)
        ⟨fun hidle => absurd rfl hidle, nofun, nofun, nofun, nofun⟩ id (fun _ => rfl) h.name rfl
        h.logs
    refine ⟨howned, h.day, hidle.threads, h.name, h.fullPath, h.logs, fun entry hentry => ?_⟩
    rcases List.mem_append.mp hentry with hold | hnew
    · exact h.written entry hold
    · obtain rfl := List.mem_singleton.mp hnew
      exact h.logAt hstage

theorem LogSystem.Fresh.oneDay (h : s.Fresh)
    (hname : s.logger.fileName = loggerFileName (dateOf s.day)) :
    s.OneDay dateOf s.day (loggerCurrentFullPath s.logger (dateOf s.day)) where
  owned := h.owned
  day := rfl
  threads := fun t => by
    have hidle := h.idle t
    constructor <;> rw [hidle]
    · exact fun hne => absurd rfl hne
    all_goals nofun
  name := hname
  fullPath := rfl
  logs := fun fd path hlog => absurd hlog (h.unopened fd path)
  written := fun entry hentry => by
    rw [h.written] at hentry
    exact absurd hentry List.not_mem_nil

theorem LogSystem.OneDay.step (h : s.OneDay dateOf today file) (hstep : LogStep dateOf s a s')
    (hguard : a ≠ .midnight) : s'.OneDay dateOf today file := by
  have howned := h.owned.step hstep
  unfold LogStep LogSystem.next at hstep
  cases a with
  | midnight => exact absurd rfl hguard
  | opened fd =>
    obtain ⟨-, hstep⟩ := Option.ite_none_right_eq_some.mp hstep
    obtain rfl := Option.some.inj hstep
    refine ⟨howned, h.day, h.threads, h.name, h.fullPath, fun fd' path hlog => ?_, h.written⟩
    by_cases hfd : fd' = fd
    · simp only [hfd, Function.update_self] at hlog
      cases hlog
    · simp only [Function.update_of_ne hfd] at hlog
      exact h.logs fd' path hlog
  | closed fd =>
    obtain ⟨-, hstep⟩ := Option.ite_none_right_eq_some.mp hstep
    obtain rfl := Option.some.inj hstep
    refine ⟨howned, h.day, h.threads, h.name, h.fullPath, fun fd' path hlog => ?_, h.written⟩
    by_cases hfd : fd' = fd
    · simp only [hfd, Function.update_self] at hlog
      cases hlog
    · simp only [Function.update_of_ne hfd] at hlog
      exact h.logs fd' path hlog
  | call t record =>
    obtain ⟨-, hstep⟩ := Option.ite_none_right_eq_some.mp hstep
    obtain rfl := Option.some.inj hstep
    unfold LogSystem.call at howned ⊢
    rw [if_neg (by rw [h.owned.active]; nofun)] at howned ⊢
    refine h.setThread howned ⟨fun _ => ?_, nofun, nofun, nofun, nofun⟩ id (fun _ => rfl) h.name rfl
      h.logs
    rw [h.day]
  | step t fd count =>
    exact h.turn hstep

end OneDay

/-- Calls one after the other. -/
def LogSystem.Serial {n : ℕ} (s : LogSystem n) : LogAction n → Prop
  | .call _ _ => ∀ t, (s.threads t).stage = .idle
  | _ => True

instance {n : ℕ} (s : LogSystem n) : (a : LogAction n) → Decidable (s.Serial a)
  | .call _ _ => inferInstanceAs (Decidable (∀ _, _))
  | .midnight | .opened _ | .closed _ | .step .. => inferInstanceAs (Decidable True)

/-- The days so far have log files of different names. -/
def LogSystem.Calendar {n : ℕ} (dateOf : ℕ → Bytes) (s : LogSystem n) : Prop :=
  Set.InjOn (fun day => loggerFileName (dateOf day)) {day | day ≤ s.day}

/-- The file of a day since `begun` is open. -/
def LogSystem.OpenSince {n : ℕ} (fileOf : ℕ → Bytes) (begun : ℕ) (s : LogSystem n) : Prop :=
  ∃ d, begun ≤ d ∧ d ≤ s.day ∧ s.table s.logger.fileFd = some (.log (fileOf d))

/-- A call that nobody disturbs: it finds the log initialized only under the name of the day on which
it began, and has a file of that day or of a later one in the end. -/
structure DailyCall {n : ℕ} (dateOf fileOf : ℕ → Bytes) (s : LogSystem n) (thread : LogThread) :
    Prop where
  begun : thread.begun ≤ s.day
  name : thread.newLoggerFileName = loggerFileName (dateOf thread.begun)
  uptodate : thread.stage = .check → s.logger.initialized = true →
    s.logger.fileName = thread.newLoggerFileName
  waiting : thread.stage = .lock ∨ thread.stage = .recheck ∨ thread.stage.Opening = true →
    s.logger.initialized = false
  fullPath : thread.stage = .close ∨ thread.stage = .setName ∨ thread.stage = .openFile →
    ∃ d, thread.begun ≤ d ∧ d ≤ s.day ∧ thread.loggerFullPath = fileOf d
  renamed : thread.stage = .openFile ∨ thread.stage = .setInitialized →
    s.logger.fileName = thread.newLoggerFileName
  opened : thread.stage = .setInitialized ∨ thread.stage.Done = true →
    s.OpenSince fileOf thread.begun
  fetched : thread.stage = .write → thread.fileFd = s.logger.fileFd

/-- While the calls are made one after the other: an initialized log has the name of a day and a file
of that day or of a later one. -/
structure LogSystem.Daily {n : ℕ} (dateOf fileOf : ℕ → Bytes) (s : LogSystem n) : Prop where
  owned : s.Owned
  alone : ∀ t u, (s.threads t).stage ≠ .idle → (s.threads u).stage ≠ .idle → t = u
  calls : ∀ t, (s.threads t).stage ≠ .idle → DailyCall dateOf fileOf s (s.threads t)
  log : s.logger.initialized = true → ∃ named ≤ s.day,
    s.logger.fileName = loggerFileName (dateOf named) ∧ s.OpenSince fileOf named
  path : ∀ d, loggerCurrentFullPath s.logger (dateOf d) = fileOf d
  written : ∀ entry ∈ s.written, ∃ d, entry.begun ≤ d ∧ d ≤ entry.ended ∧
    entry.target = some (fileOf d)

section Daily

variable {n : ℕ} {dateOf fileOf : ℕ → Bytes} {s s' : LogSystem n} {a : LogAction n} {t : Fin n}
  {thread : LogThread}

theorem LogSystem.turn_day {fd : ℤ} {count : ℕ} (hturn : s.turn dateOf t fd count = some s') :
    s'.day = s.day := by
  simp only [LogSystem.turn] at hturn
  split at hturn
  all_goals first
    | obtain rfl := Option.some.inj hturn; rfl
    | obtain ⟨-, hturn⟩ := Option.ite_none_right_eq_some.mp hturn
      obtain rfl := Option.some.inj hturn
      rfl
    | cases hturn

theorem LogSystem.step_day (hstep : LogStep dateOf s a s') :
    s'.day = s.day ∨ a = .midnight ∧ s'.day = s.day + 1 := by
  unfold LogStep LogSystem.next at hstep
  cases a with
  | midnight =>
    obtain rfl := Option.some.inj hstep
    exact Or.inr ⟨rfl, rfl⟩
  | opened fd =>
    obtain ⟨-, hstep⟩ := Option.ite_none_right_eq_some.mp hstep
    obtain rfl := Option.some.inj hstep
    exact Or.inl rfl
  | closed fd =>
    obtain ⟨-, hstep⟩ := Option.ite_none_right_eq_some.mp hstep
    obtain rfl := Option.some.inj hstep
    exact Or.inl rfl
  | call t record =>
    obtain ⟨-, hstep⟩ := Option.ite_none_right_eq_some.mp hstep
    obtain rfl := Option.some.inj hstep
    unfold LogSystem.call
    split <;> exact Or.inl rfl
  | step t fd count => exact Or.inl (LogSystem.turn_day hstep)

theorem LogSystem.Daily.setThread (h : s.Daily dateOf fileOf) (ht : (s.threads t).stage ≠ .idle)
    {logger : Logger} {table : ℤ → Option OpenFile} {lock : Option (Fin n)}
    (howned : ({ s with logger, table, lock }.setThread t thread).Owned)
    (hcall : DailyCall dateOf fileOf { s with logger, table, lock } thread)
    (hlog : logger.initialized = true → ∃ named ≤ s.day,
      logger.fileName = loggerFileName (dateOf named) ∧
        { s with logger, table, lock }.OpenSince fileOf named)
    (hpath : logger.path = s.logger.path) :
    ({ s with logger, table, lock }.setThread t thread).Daily dateOf fileOf := by
  -- the others are idle
  have halone : ∀ u, (({ s with logger, table, lock }.setThread t thread).threads u).stage ≠ .idle →
      u = t := by
    intro u hu
    by_contra hut
    rw [LogSystem.setThread_of_ne hut] at hu
    exact hut (h.alone u t hu ht)
  refine ⟨howned, fun u v hu hv => (halone u hu).trans (halone v hv).symm, fun u hu => ?_, hlog,
    fun d => ?_, h.written⟩
  · rw [halone u hu, LogSystem.setThread_self]
    exact ⟨hcall.begun, hcall.name, hcall.uptodate, hcall.waiting, hcall.fullPath, hcall.renamed,
      hcall.opened, hcall.fetched⟩
  · rw [← h.path d]
    unfold loggerCurrentFullPath
    rw [← hpath]
    rfl

theorem DailyCall.goto (h : DailyCall dateOf fileOf s thread) {stage : LogStage}
    (huptodate : stage = .check → s.logger.initialized = true →
      s.logger.fileName = thread.newLoggerFileName)
    (hwaiting : stage = .lock ∨ stage = .recheck ∨ stage.Opening = true →
      s.logger.initialized = false)
    (hpath : stage = .close ∨ stage = .setName ∨ stage = .openFile →
      ∃ d, thread.begun ≤ d ∧ d ≤ s.day ∧ thread.loggerFullPath = fileOf d)
    (hrenamed : stage = .openFile ∨ stage = .setInitialized →
      s.logger.fileName = thread.newLoggerFileName)
    (hopened : stage = .setInitialized ∨ stage.Done = true → s.OpenSince fileOf thread.begun)
    (hwrite : stage ≠ .write) : DailyCall dateOf fileOf s { thread with stage } where
  begun := h.begun
  name := h.name
  uptodate := huptodate
  waiting := hwaiting
  fullPath := hpath
  renamed := hrenamed
  opened := hopened
  fetched := fun heq => absurd heq hwrite

/-- A log that is initialized under the name of the day on which the call began. -/
theorem LogSystem.Daily.openSince (h : s.Daily dateOf fileOf) (hcalendar : s.Calendar dateOf)
    (hcall : DailyCall dateOf fileOf s thread) (hinit : s.logger.initialized = true)
    (hname : s.logger.fileName = thread.newLoggerFileName) : s.OpenSince fileOf thread.begun := by
  obtain ⟨named, hday, hfileName, hopen⟩ := h.log hinit
  have hsame : loggerFileName (dateOf named) = loggerFileName (dateOf thread.begun) := by
    rw [← hfileName, hname, hcall.name]
  have hbegun : named = thread.begun := hcalendar hday hcall.begun hsame
  exact hbegun ▸ hopen

theorem LogSystem.Daily.turn (h : s.Daily dateOf fileOf) (hcalendar : s.Calendar dateOf) {fd : ℤ}
    {count : ℕ} (hturn : s.turn dateOf t fd count = some s') : s'.Daily dateOf fileOf := by
  have howned := h.owned.turn hturn
  have hactive : (s.threads t).stage ≠ .idle := by
    intro hidle
    unfold LogSystem.turn at hturn
    simp only [hidle] at hturn
    cases hturn
  have hcall := h.calls t hactive
  unfold LogSystem.turn at hturn
  simp only at hturn
  cases hstage : (s.threads t).stage with
  | idle => exact absurd hstage hactive
  | compareName =>
    simp only [hstage] at hturn
    obtain rfl := Option.some.inj hturn
    refine h.setThread hactive howned ?_ h.log rfl
    split
    · rename_i hsame
      exact hcall.goto (fun _ _ => hsame.symm) nofun nofun nofun nofun nofun
    · exact hcall.goto nofun nofun nofun nofun nofun nofun
  | reset =>
    simp only [hstage] at hturn
    obtain rfl := Option.some.inj hturn
    refine h.setThread hactive howned ?_ nofun rfl
    exact ⟨hcall.begun, hcall.name, nofun, nofun, nofun, nofun, nofun, nofun⟩
  | check =>
    simp only [hstage] at hturn
    obtain rfl := Option.some.inj hturn
    refine h.setThread hactive howned ?_ h.log rfl
    cases hinit : s.logger.initialized
    · exact hcall.goto nofun (fun _ => hinit) nofun nofun nofun nofun
    · exact hcall.goto nofun nofun nofun nofun
        (fun _ => h.openSince hcalendar hcall hinit (hcall.uptodate hstage hinit)) nofun
  | lock =>
    simp only [hstage] at hturn
    obtain ⟨-, hturn⟩ := Option.ite_none_right_eq_some.mp hturn
    obtain rfl := Option.some.inj hturn
    have hwaiting := hcall.waiting (Or.inl hstage)
    refine h.setThread hactive howned ?_ h.log rfl
    exact ⟨hcall.begun, hcall.name, nofun, fun _ => hwaiting, nofun, nofun, nofun, nofun⟩
  | recheck =>
    simp only [hstage] at hturn
    obtain rfl := Option.some.inj hturn
    have hwaiting := hcall.waiting (Or.inr (Or.inl hstage))
    rw [hwaiting] at howned ⊢
    exact h.setThread hactive howned (hcall.goto nofun (fun _ => hwaiting) nofun nofun nofun nofun)
      h.log rfl
  | fullPath =>
    simp only [hstage] at hturn
    obtain rfl := Option.some.inj hturn
    have hwaiting := hcall.waiting (Or.inr (Or.inr (by rw [hstage]; rfl)))
    refine h.setThread hactive howned ?_ h.log rfl
    exact ⟨hcall.begun, hcall.name, nofun, fun _ => hwaiting,
      fun _ => ⟨s.day, hcall.begun, le_rfl, h.path _⟩, nofun, nofun, nofun⟩
  | close =>
    simp only [hstage] at hturn
    obtain rfl := Option.some.inj hturn
    have hwaiting := hcall.waiting (Or.inr (Or.inr (by rw [hstage]; rfl)))
    refine h.setThread hactive howned ?_ (fun hinit => ?_) rfl
    · exact ⟨hcall.begun, hcall.name, nofun, fun _ => hwaiting,
        fun _ => hcall.fullPath (Or.inl hstage), nofun, nofun, nofun⟩
    · rw [hwaiting] at hinit
      cases hinit
  | setName =>
    simp only [hstage] at hturn
    obtain rfl := Option.some.inj hturn
    have hwaiting := hcall.waiting (Or.inr (Or.inr (by rw [hstage]; rfl)))
    refine h.setThread hactive howned ?_ (fun hinit => ?_) rfl
    · exact ⟨hcall.begun, hcall.name, nofun, fun _ => hwaiting,
        fun _ => hcall.fullPath (Or.inr (Or.inl hstage)), fun _ => rfl, nofun, nofun⟩
    · rw [hwaiting] at hinit
      cases hinit
  | openFile =>
    simp only [hstage] at hturn
    obtain ⟨-, hturn⟩ := Option.ite_none_right_eq_some.mp hturn
    obtain rfl := Option.some.inj hturn
    have hwaiting := hcall.waiting (Or.inr (Or.inr (by rw [hstage]; rfl)))
    refine h.setThread hactive howned ?_ (fun hinit => ?_) rfl
    · refine ⟨hcall.begun, hcall.name, nofun, fun _ => hwaiting, nofun,
        fun _ => hcall.renamed (Or.inl hstage), fun _ => ?_, nofun⟩
      obtain ⟨d, hbegun, hday, hpath⟩ := hcall.fullPath (Or.inr (Or.inr hstage))
      refine ⟨d, hbegun, hday, ?_⟩
      rw [← hpath]
      exact Function.update_self ..
    · rw [hwaiting] at hinit
      cases hinit
  | setInitialized =>
    simp only [hstage] at hturn
    obtain rfl := Option.some.inj hturn
    have hopen := hcall.opened (Or.inl hstage)
    refine h.setThread hactive howned ?_ (fun _ => ?_) rfl
    · exact ⟨hcall.begun, hcall.name, nofun, nofun, nofun, nofun, fun _ => hopen, nofun⟩
    · exact ⟨_, hcall.begun, (hcall.renamed (Or.inr hstage)).trans hcall.name, hopen⟩
  | unlock =>
    simp only [hstage] at hturn
    obtain rfl := Option.some.inj hturn
    have hopen := hcall.opened (Or.inr (by rw [hstage]; rfl))
    refine h.setThread hactive howned ?_ h.log rfl
    exact ⟨hcall.begun, hcall.name, nofun, nofun, nofun, nofun, fun _ => hopen, nofun⟩
  | fetch =>
    simp only [hstage] at hturn
    obtain rfl := Option.some.inj hturn
    have hopen := hcall.opened (Or.inr (by rw [hstage]; rfl))
    refine h.setThread hactive howned ?_ h.log rfl
    exact ⟨hcall.begun, hcall.name, nofun, nofun, nofun, nofun, fun _ => hopen, fun _ => rfl⟩
  | write =>
    simp only [hstage] at hturn
    obtain rfl := Option.some.inj hturn
    obtain ⟨d, hbegun, hday, hlog⟩ := hcall.opened (Or.inr (by rw [hstage]; rfl))
    -- nobody is left
    have hidle : ∀ u, (((s.append t count).goto t .idle).threads u).stage = .idle := by
      intro u
      by_cases hut : u = t
      · rw [hut]
        unfold LogSystem.goto
        rw [LogSystem.setThread_self]
      · unfold LogSystem.goto
        rw [LogSystem.setThread_of_ne hut]
        by_contra hu
        exact hut (h.alone u t hu hactive)
    refine ⟨howned, fun u v hu _ => absurd (hidle u) hu, fun u hu => absurd (hidle u) hu, h.log,
      h.path, fun entry hentry => ?_⟩
    rcases List.mem_append.mp hentry with hold | hnew
    · exact h.written entry hold
    · obtain rfl := List.mem_singleton.mp hnew
      refine ⟨d, hbegun, hday, ?_⟩
      unfold LogSystem.logAt
      rw [hcall.fetched hstage, hlog]

theorem LogSystem.Daily.later (h : s.Daily dateOf fileOf) {day : ℕ} {table : ℤ → Option OpenFile}
    (howned : { s with day, table }.Owned) (hday : s.day ≤ day)
    (htable : ∀ fd path, s.table fd = some (.log path) → table fd = some (.log path)) :
    { s with day, table }.Daily dateOf fileOf := by
  have hopen : ∀ begun, s.OpenSince fileOf begun → { s with day, table }.OpenSince fileOf begun := by
    rintro begun ⟨d, hbegun, hd, hlog⟩
    exact ⟨d, hbegun, hd.trans hday, htable _ _ hlog⟩
  refine ⟨howned, h.alone, fun t ht => ?_, fun hinit => ?_, h.path, h.written⟩
  · have hcall := h.calls t ht
    refine ⟨hcall.begun.trans hday, hcall.name, hcall.uptodate, hcall.waiting, fun hstage => ?_,
      hcall.renamed, fun hstage => hopen _ (hcall.opened hstage), hcall.fetched⟩
    obtain ⟨d, hbegun, hd, hpath⟩ := hcall.fullPath hstage
    exact ⟨d, hbegun, hd.trans hday, hpath⟩
  · obtain ⟨named, hnamed, hname, hlog⟩ := h.log hinit
    exact ⟨named, hnamed.trans hday, hname, hopen named hlog⟩

theorem LogSystem.log_kept {fd fd' : ℤ} {path : Bytes} (entry : Option OpenFile)
    (hfd : ∀ path, s.table fd ≠ some (.log path)) (hlog : s.table fd' = some (.log path)) :
    Function.update s.table fd entry fd' = some (.log path) := by
  have hne : fd' ≠ fd := by
    rintro rfl
    exact hfd path hlog
  rw [Function.update_of_ne hne, hlog]

theorem LogSystem.Daily.step (h : s.Daily dateOf fileOf) (hcalendar : s.Calendar dateOf)
    (hstep : LogStep dateOf s a s') (hserial : s.Serial a) : s'.Daily dateOf fileOf := by
  have howned := h.owned.step hstep
  unfold LogStep LogSystem.next at hstep
  cases a with
  | midnight =>
    obtain rfl := Option.some.inj hstep
    exact h.later howned (Nat.le_succ _) fun _ _ hlog => hlog
  | opened fd =>
    obtain ⟨⟨-, hfree⟩, hstep⟩ := Option.ite_none_right_eq_some.mp hstep
    obtain rfl := Option.some.inj hstep
    exact h.later howned le_rfl fun _ _ => LogSystem.log_kept _ (by rw [hfree]; nofun)
  | closed fd =>
    obtain ⟨hother, hstep⟩ := Option.ite_none_right_eq_some.mp hstep
    obtain rfl := Option.some.inj hstep
    exact h.later howned le_rfl fun _ _ => LogSystem.log_kept _ (by rw [hother]; nofun)
  | call t record =>
    obtain ⟨-, hstep⟩ := Option.ite_none_right_eq_some.mp hstep
    obtain rfl := Option.some.inj hstep
    have hidle : ∀ u, (s.threads u).stage = .idle := hserial
    unfold LogSystem.call at howned ⊢
    rw [if_neg (by rw [h.owned.active]; nofun)] at howned ⊢
    -- the call is the only one
    have hcaller : ∀ u, ((s.setThread t
        ⟨.compareName, record, loggerFileName (dateOf s.day), [], 0, s.day⟩).threads u).stage ≠
          .idle → u = t := by
      intro u hu
      by_contra hut
      rw [LogSystem.setThread_of_ne hut] at hu
      exact hu (hidle u)
    refine ⟨howned, fun u v hu hv => (hcaller u hu).trans (hcaller v hv).symm, fun u hu => ?_, h.log,
      h.path, h.written⟩
    rw [hcaller u hu, LogSystem.setThread_self]
    exact ⟨le_rfl, rfl, nofun, nofun, nofun, nofun, nofun, nofun⟩
  | step t fd count => exact h.turn hcalendar hstep

theorem LogSystem.Fresh.daily (h : s.Fresh)
    (hpath : ∀ d, loggerCurrentFullPath s.logger (dateOf d) = fileOf d) : s.Daily dateOf fileOf where
  owned := h.owned
  alone := fun t u ht _ => absurd (h.idle t) ht
  calls := fun t ht => absurd (h.idle t) ht
  log := fun hinit => by
    rw [h.uninitialized] at hinit
    cases hinit
  path := hpath
  written := fun entry hentry => by
    rw [h.written] at hentry
    exact absurd hentry List.not_mem_nil

/-- Below a calendar. -/
def LogSystem.DailyIf {n : ℕ} (dateOf fileOf : ℕ → Bytes) (s : LogSystem n) : Prop :=
  s.Calendar dateOf → s.Daily dateOf fileOf

theorem LogSystem.DailyIf.step (h : s.DailyIf dateOf fileOf) (hstep : LogStep dateOf s a s')
    (hserial : s.Serial a) : s'.DailyIf dateOf fileOf := by
  intro hcalendar
  have hday : s.day ≤ s'.day := by
    rcases LogSystem.step_day hstep with hday | ⟨-, hday⟩ <;> omega
  have hbefore : s.Calendar dateOf := hcalendar.mono fun d hd => le_trans hd hday
  exact (h hbefore).step hbefore hstep hserial

end Daily

def onlyCaller : Fin 1 := ⟨0, Nat.one_pos⟩

/-- Two records of one thread; the day ends while it opens the file for the first one. -/
def midnightRecords : List (LogAction 1) :=
  [.call onlyCaller (bytes "a\n"), .step onlyCaller 0 0, .step onlyCaller 0 0,
    .step onlyCaller 0 0, .step onlyCaller 0 0, .midnight, .step onlyCaller 0 0,
    .step onlyCaller 0 0, .step onlyCaller 0 0, .step onlyCaller 2 0, .step onlyCaller 0 0,
    .step onlyCaller 0 0, .step onlyCaller 0 0, .step onlyCaller 0 2,
    .call onlyCaller (bytes "b\n"), .step onlyCaller 0 0, .step onlyCaller 0 0,
    .step onlyCaller 0 0, .step onlyCaller 0 0, .step onlyCaller 0 0, .step onlyCaller 0 0,
    .step onlyCaller 0 0, .step onlyCaller 0 0, .step onlyCaller 2 0, .step onlyCaller 0 0,
    .step onlyCaller 0 0, .step onlyCaller 0 0, .step onlyCaller 0 2]

end UbServer
