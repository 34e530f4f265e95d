import UbServer.Response
import UbServer.Lib.Runs
import UbServer.Lib.SharedFile

/-!
# The compressed copy of a file, with several threads

Threads that execute the last part of `makeContentEncoding` for one file that does not change. They
share the file of the compressed copy and nothing else; each writes it at an offset of its own.

* `EncodeSystem.next`: one step of one thread on the file system.
* `EncodeSystem.step_cases`: everything a step can do.
* `Complete`: who has taken `fstat` of the copy has got the whole of it.
* `Undisturbed`: nobody creates the copy while another one creates or sends it.
* `complete_of_undisturbed`: undisturbed steps are enough.
-/

namespace UbServer

open Runs SharedFile

/-- Where a thread stands: before `access`, before `gzopen`, in the loop that copies the file, with
the part of it that is not read yet and the offset that it writes at, before `open`, before `fstat`,
after `fstat` with the size of the copy, or after the copy has been sent. -/
inductive EncodePc where
  | access
  | gzopen
  | copying (unread : Bytes) (offset : ℕ)
  | openGzip
  | fstat
  | sending (bodyLength : ℕ)
  | sent
  deriving DecidableEq

/-- The thread is between `gzopen` and `gzclose`. -/
def EncodePc.Copying : EncodePc → Prop
  | .copying _ _ => True
  | _ => False

/-- The thread has taken `fstat` of the copy and not closed it yet. -/
def EncodePc.Sending : EncodePc → Prop
  | .sending _ => True
  | _ => False

instance : DecidablePred EncodePc.Copying := fun pc => by
  cases pc <;> unfold EncodePc.Copying <;> infer_instance

instance : DecidablePred EncodePc.Sending := fun pc => by
  cases pc <;> unfold EncodePc.Sending <;> infer_instance

/-- The compressed copy and the threads, with a ledger of who created the copy last. -/
structure EncodeSystem (n : ℕ) where
  gzFile : Option Bytes
  threads : Fin n → EncodePc
  creator : Option (Fin n)

def EncodeSystem.init (n : ℕ) (gzFile : Option Bytes) : EncodeSystem n :=
  ⟨gzFile, fun _ => .access, none⟩

/-- A step of a thread: how much of the file `read` returns, and how many bytes of its output `zlib`
lets go. -/
structure EncodeAction (n : ℕ) where
  thread : Fin n
  bytesRead : ℕ
  flushed : ℕ

section Steps

variable {n : ℕ} (gzip : Bytes → Bytes) (content : Bytes) (s : EncodeSystem n) (a : EncodeAction n)

/-- The thread further on. -/
def EncodeSystem.goto (t : Fin n) (pc : EncodePc) : EncodeSystem n :=
  { s with threads := Function.update s.threads t pc }

/-- The thread further on, after it has written a part of the compressed content. -/
def EncodeSystem.write (t : Fin n) (offset : ℕ) (data : Bytes) (pc : EncodePc) :
    EncodeSystem n :=
  { s with
    gzFile := s.gzFile.map fun file => pwrite 0 file offset data
    threads := Function.update s.threads t pc }

/-- `gzopen` with "wb": the copy is created, or truncated. -/
def EncodeSystem.create (t : Fin n) : EncodeSystem n :=
  { gzFile := some []
    threads := Function.update s.threads t (.copying content 0)
    creator := some t }

/-- One step. `die` and what is left of a call that fails is `none`. -/
def EncodeSystem.next : Option (EncodeSystem n) :=
  let t := a.thread
  match s.threads t with
  | .access => some (s.goto t (if s.gzFile.isSome then .openGzip else .gzopen))
  | .gzopen => some (s.create content t)
  | .copying unread offset =>
    if unread = [] then
      -- `gzclose` writes what is left
      some (s.write t offset ((gzip content).drop offset) .openGzip)
    else if 0 < a.bytesRead ∧ a.bytesRead ≤ 1024 then
      let data := ((gzip content).drop offset).take a.flushed
      some (s.write t offset data (.copying (unread.drop a.bytesRead) (offset + data.length)))
    else none
  | .openGzip => if s.gzFile.isSome then some (s.goto t .fstat) else none
  | .fstat => s.gzFile.map fun file => s.goto t (.sending file.length)
  | .sending _ => some (s.goto t .sent)
  | .sent => none

end Steps

/-- One step, as a step relation. -/
abbrev EncodeStep {n : ℕ} (gzip : Bytes → Bytes) (content : Bytes) (s : EncodeSystem n)
    (a : EncodeAction n) (s' : EncodeSystem n) : Prop :=
  s.next gzip content a = some s'

/-- **A complete copy**: whoever has taken `fstat` has got the size of the whole compressed content,
and sends the whole of it. -/
def EncodeSystem.Complete {n : ℕ} (compressed : Bytes) (s : EncodeSystem n) : Prop :=
  ∀ t bodyLength, s.threads t = .sending bodyLength →
    bodyLength = compressed.length ∧ s.gzFile = some compressed

/-- **An undisturbed step**: nobody creates the copy while another thread sends it, and nobody takes
`fstat` while the thread that created the copy last has not closed it. -/
def EncodeSystem.Undisturbed {n : ℕ} (s : EncodeSystem n) (a : EncodeAction n) : Prop :=
  match s.threads a.thread with
  | .gzopen => ∀ t, ¬ (s.threads t).Sending
  | .fstat => ∀ creator ∈ s.creator, ¬ (s.threads creator).Copying
  | _ => True

instance {n : ℕ} (s : EncodeSystem n) (a : EncodeAction n) : Decidable (s.Undisturbed a) := by
  unfold EncodeSystem.Undisturbed
  split <;> infer_instance

/-! ### What the threads have written -/

/-- How far a thread that created the copy has written it. -/
def EncodePc.written (compressed : Bytes) : EncodePc → ℕ
  | .copying _ offset => offset
  | _ => compressed.length

/-- Everything a step of a thread can do: it goes on without touching the copy, creates the copy,
writes the next part of it, or takes `fstat`. -/
inductive EncodeSystem.Stepped {n : ℕ} (compressed content : Bytes) (s : EncodeSystem n) (t : Fin n) :
    EncodeSystem n → Prop
  | went (pc : EncodePc) : ¬ (s.threads t).Copying → ¬ pc.Copying → ¬ pc.Sending →
      (s.threads t ≠ .access → pc ≠ .access ∧ pc ≠ .gzopen) →
      Stepped compressed content s t (s.goto t pc)
  | created : s.threads t = .gzopen → Stepped compressed content s t (s.create content t)
  | wrote (unread : Bytes) (offset count : ℕ) (pc : EncodePc) :
      s.threads t = .copying unread offset → pc ≠ .access ∧ pc ≠ .gzopen → ¬ pc.Sending →
      (offset ≤ compressed.length →
        pc.written compressed = offset + ((compressed.drop offset).take count).length) →
      Stepped compressed content s t (s.write t offset ((compressed.drop offset).take count) pc)
  | tookSize (file : Bytes) : s.threads t = .fstat → s.gzFile = some file →
      Stepped compressed content s t (s.goto t (.sending file.length))

/-- The copy is the compressed content as far as the thread that created it last has come, or, if
nobody has created it, is as it was at the start; a thread that has seen it finds it. -/
structure EncodeSystem.Sound {n : ℕ} (compressed : Bytes) (s : EncodeSystem n) : Prop where
  untouched : s.creator = none →
    (s.gzFile = none ∨ s.gzFile = some compressed) ∧ ∀ t, ¬ (s.threads t).Copying
  covered : ∀ creator, s.creator = some creator → ∃ file, s.gzFile = some file ∧
    Covers compressed ((s.threads creator).written compressed) file
  created : ∀ creator, s.creator = some creator →
    s.threads creator ≠ .access ∧ s.threads creator ≠ .gzopen
  offsets : ∀ t unread offset, s.threads t = .copying unread offset → offset ≤ compressed.length

section Invariant

variable {n : ℕ} {gzip : Bytes → Bytes} {content compressed : Bytes} {s s' : EncodeSystem n}
  {a : EncodeAction n} {t : Fin n} {pc : EncodePc}

@[simp] theorem EncodeSystem.goto_self : (s.goto t pc).threads t = pc := Function.update_self ..

theorem EncodeSystem.goto_of_ne {u : Fin n} (h : u ≠ t) : (s.goto t pc).threads u = s.threads u :=
  Function.update_of_ne h ..

@[simp] theorem EncodeSystem.write_self {offset : ℕ} {data : Bytes} :
    (s.write t offset data pc).threads t = pc := Function.update_self ..

theorem EncodeSystem.write_of_ne {u : Fin n} {offset : ℕ} {data : Bytes} (h : u ≠ t) :
    (s.write t offset data pc).threads u = s.threads u := Function.update_of_ne h ..

@[simp] theorem EncodeSystem.create_self : (s.create content t).threads t = .copying content 0 :=
  Function.update_self ..

theorem EncodeSystem.create_of_ne {u : Fin n} (h : u ≠ t) :
    (s.create content t).threads u = s.threads u := Function.update_of_ne h ..

theorem EncodePc.written_of_not_copying (h : ¬ pc.Copying) :
    pc.written compressed = compressed.length := by
  cases pc with
  | copying unread offset => exact absurd trivial h
  | _ => rfl

theorem EncodeSystem.sound_init {gzFile : Option Bytes}
    (h : gzFile = none ∨ gzFile = some compressed) :
    (EncodeSystem.init n gzFile).Sound compressed where
  untouched := fun _ => ⟨h, fun _ => id⟩
  covered := nofun
  created := nofun
  offsets := nofun

/-- Once the thread that created the copy last has closed it, the copy is complete. -/
theorem EncodeSystem.Sound.complete_file (h : s.Sound compressed) {file : Bytes}
    (hfile : s.gzFile = some file)
    (hclosed : ∀ creator ∈ s.creator, ¬ (s.threads creator).Copying) : file = compressed := by
  cases hcreator : s.creator with
  | none =>
    obtain ⟨hstart, -⟩ := h.untouched hcreator
    rcases hstart with hnone | hcomplete
    · rw [hnone] at hfile
      cases hfile
    · exact Option.some.inj (hfile.symm.trans hcomplete)
  | some creator =>
    obtain ⟨file', hfile', hcovers⟩ := h.covered creator hcreator
    obtain rfl := Option.some.inj (hfile'.symm.trans hfile)
    rw [EncodePc.written_of_not_copying (hclosed creator hcreator)] at hcovers
    exact hcovers.eq

theorem EncodeSystem.Sound.goto (h : s.Sound compressed) (hold : ¬ (s.threads t).Copying)
    (hnew : ¬ pc.Copying) (hcreated : s.creator = some t → pc ≠ .access ∧ pc ≠ .gzopen) :
    (s.goto t pc).Sound compressed := by
  refine ⟨fun hnone => ⟨(h.untouched hnone).1, fun u => ?_⟩, fun creator hcreator => ?_,
    fun creator hcreator => ?_, fun u unread offset hu => ?_⟩
  · by_cases hut : u = t
    · rw [hut, EncodeSystem.goto_self]
      exact hnew
    · rw [EncodeSystem.goto_of_ne hut]
      exact (h.untouched hnone).2 u
  · obtain ⟨file, hfile, hcovers⟩ := h.covered creator hcreator
    refine ⟨file, hfile, ?_⟩
    by_cases hct : creator = t
    · rw [hct, EncodePc.written_of_not_copying hold] at hcovers
      rw [hct, EncodeSystem.goto_self, EncodePc.written_of_not_copying hnew]
      exact hcovers
    · rw [EncodeSystem.goto_of_ne hct]
      exact hcovers
  · by_cases hct : creator = t
    · rw [hct, EncodeSystem.goto_self]
      exact hcreated (hct ▸ hcreator)
    · rw [EncodeSystem.goto_of_ne hct]
      exact h.created creator hcreator
  · by_cases hut : u = t
    · rw [hut, EncodeSystem.goto_self] at hu
      rw [hu] at hnew
      exact absurd trivial hnew
    · rw [EncodeSystem.goto_of_ne hut] at hu
      exact h.offsets u unread offset hu

theorem EncodeSystem.Sound.write (h : s.Sound compressed) {unread : Bytes} {offset count : ℕ}
    (hold : s.threads t = .copying unread offset)
    (hpc : pc.written compressed = offset + ((compressed.drop offset).take count).length)
    (hnew : pc ≠ .access ∧ pc ≠ .gzopen) :
    (s.write t offset ((compressed.drop offset).take count) pc).Sound compressed := by
  have hoffset := h.offsets t unread offset hold
  refine ⟨fun hnone => ?_, fun creator hcreator => ?_, fun creator hcreator => ?_,
    fun u unread' offset' hu => ?_⟩
  · have hcopying := (h.untouched hnone).2 t
    rw [hold] at hcopying
    exact absurd trivial hcopying
  · obtain ⟨file, hfile, hcovers⟩ := h.covered creator hcreator
    refine ⟨SharedFile.pwrite 0 file offset ((compressed.drop offset).take count), ?_, ?_⟩
    · rw [EncodeSystem.write, hfile]
      rfl
    · by_cases hct : creator = t
      · rw [hct, hold] at hcovers
        rw [hct, EncodeSystem.write_self, hpc]
        exact Covers.pwrite_next hcovers
      · rw [EncodeSystem.write_of_ne hct]
        exact hcovers.pwrite_part hoffset
  · by_cases hct : creator = t
    · rw [hct, EncodeSystem.write_self]
      exact hnew
    · rw [EncodeSystem.write_of_ne hct]
      exact h.created creator hcreator
  · by_cases hut : u = t
    · rw [hut, EncodeSystem.write_self] at hu
      have hle : offset + ((compressed.drop offset).take count).length ≤ compressed.length :=
        length_part_le hoffset
      rw [← hpc, hu] at hle
      exact hle
    · rw [EncodeSystem.write_of_ne hut] at hu
      exact h.offsets u unread' offset' hu

theorem EncodeSystem.Sound.create (h : s.Sound compressed) :
    (s.create content t).Sound compressed := by
  refine ⟨nofun, fun creator hcreator => ?_, fun creator hcreator => ?_,
    fun u unread offset hu => ?_⟩
  · obtain rfl := Option.some.inj hcreator
    refine ⟨[], rfl, ?_⟩
    rw [EncodeSystem.create_self]
    exact covers_nil compressed
  · obtain rfl := Option.some.inj hcreator
    rw [EncodeSystem.create_self]
    exact ⟨nofun, nofun⟩
  · by_cases hut : u = t
    · rw [hut, EncodeSystem.create_self] at hu
      obtain ⟨-, rfl⟩ := EncodePc.copying.inj hu
      exact Nat.zero_le _
    · rw [EncodeSystem.create_of_ne hut] at hu
      exact h.offsets u unread offset hu

theorem take_rest (compressed : Bytes) (offset : ℕ) :
    (compressed.drop offset).take compressed.length = compressed.drop offset := by
  refine List.take_of_length_le ?_
  rw [List.length_drop]
  omega

theorem EncodeSystem.step_cases (h : EncodeStep gzip content s a s') :
    s.Stepped (gzip content) content a.thread s' := by
  unfold EncodeStep EncodeSystem.next at h
  simp only at h
  cases hpc : s.threads a.thread with
  | access =>
    simp only [hpc] at h
    obtain rfl := Option.some.inj h
    refine .went _ (by rw [hpc]; exact id) ?_ ?_ fun hgone => absurd hpc hgone
    · split <;> exact id
    · split <;> exact id
  | gzopen =>
    simp only [hpc] at h
    obtain rfl := Option.some.inj h
    exact .created hpc
  | copying unread offset =>
    simp only [hpc] at h
    split at h
    · obtain rfl := Option.some.inj h
      rw [← take_rest (gzip content) offset]
      refine .wrote _ _ _ _ hpc ⟨nofun, nofun⟩ id fun hoffset => ?_
      rw [take_rest, List.length_drop]
      exact (Nat.add_sub_of_le hoffset).symm
    · split at h
      · obtain rfl := Option.some.inj h
        exact .wrote _ _ _ _ hpc ⟨nofun, nofun⟩ id fun _ => rfl
      · cases h
  | openGzip =>
    simp only [hpc] at h
    split at h
    · obtain rfl := Option.some.inj h
      exact .went _ (by rw [hpc]; exact id) id id fun _ => ⟨nofun, nofun⟩
    · cases h
  | fstat =>
    simp only [hpc] at h
    obtain ⟨file, hfile, rfl⟩ := Option.map_eq_some_iff.mp h
    exact .tookSize file hpc hfile
  | sending bodyLength =>
    simp only [hpc] at h
    obtain rfl := Option.some.inj h
    exact .went _ (by rw [hpc]; exact id) id id fun _ => ⟨nofun, nofun⟩
  | sent =>
    simp only [hpc] at h
    cases h

/-- **What every step keeps.** -/
theorem EncodeSystem.Sound.step (h : s.Sound (gzip content))
    (hstep : EncodeStep gzip content s a s') : s'.Sound (gzip content) := by
  cases EncodeSystem.step_cases hstep with
  | went pc hold hnew _ hgone =>
    exact h.goto hold hnew fun hcreator => hgone (h.created _ hcreator).1
  | created _ => exact h.create
  | wrote unread offset count pc hold hnew _ hwritten =>
    exact h.write hold (hwritten (h.offsets _ _ _ hold)) hnew
  | tookSize file hfstat _ =>
    refine h.goto ?_ id fun _ => ⟨nofun, nofun⟩
    rw [hfstat]
    exact id

theorem EncodeSystem.Complete.goto (h : s.Complete compressed) (hnew : ¬ pc.Sending) :
    (s.goto t pc).Complete compressed := by
  intro u bodyLength hu
  by_cases hut : u = t
  · rw [hut, goto_self] at hu
    rw [hu] at hnew
    exact absurd trivial hnew
  · rw [goto_of_ne hut] at hu
    exact h u bodyLength hu

/-- Writing a part of the compressed content into a complete copy changes nothing. -/
theorem EncodeSystem.Complete.write (h : s.Complete compressed) {offset count : ℕ}
    (hoffset : offset ≤ compressed.length) (hnew : ¬ pc.Sending) :
    (s.write t offset ((compressed.drop offset).take count) pc).Complete compressed := by
  intro u bodyLength hu
  by_cases hut : u = t
  · rw [hut, write_self] at hu
    rw [hu] at hnew
    exact absurd trivial hnew
  · rw [write_of_ne hut] at hu
    obtain ⟨hlength, hfile⟩ := h u bodyLength hu
    refine ⟨hlength, ?_⟩
    have hcovers : Covers compressed compressed.length
        (SharedFile.pwrite 0 compressed offset ((compressed.drop offset).take count)) :=
      (covers_self compressed).pwrite_part hoffset
    rw [EncodeSystem.write, hfile, Option.map_some, hcovers.eq]

/-- **An undisturbed step** keeps complete what is sent. -/
theorem EncodeSystem.Complete.step (h : s.Complete (gzip content)) (hsound : s.Sound (gzip content))
    (hundisturbed : s.Undisturbed a) (hstep : EncodeStep gzip content s a s') :
    s'.Complete (gzip content) := by
  unfold EncodeSystem.Undisturbed at hundisturbed
  cases EncodeSystem.step_cases hstep with
  | went pc _ _ hnew _ => exact h.goto hnew
  | created hgzopen =>
    rw [hgzopen] at hundisturbed
    -- nobody sends
    intro u bodyLength hu
    by_cases hut : u = a.thread
    · rw [hut, create_self] at hu
      cases hu
    · rw [create_of_ne hut] at hu
      have hidle := hundisturbed u
      rw [hu] at hidle
      exact absurd trivial hidle
  | wrote unread offset count pc hold _ hnew _ => exact h.write (hsound.offsets _ _ _ hold) hnew
  | tookSize file hfstat hfile =>
    rw [hfstat] at hundisturbed
    obtain rfl := hsound.complete_file hfile hundisturbed
    intro u bodyLength hu
    by_cases hut : u = a.thread
    · rw [hut, goto_self] at hu
      exact ⟨(EncodePc.sending.inj hu).symm, hfile⟩
    · rw [goto_of_ne hut] at hu
      exact h u bodyLength hu

theorem EncodeSystem.sound_and_complete {gzFile : Option Bytes}
    {h : List (Transition (EncodeSystem n) (EncodeAction n))}
    (hstart : gzFile = none ∨ gzFile = some (gzip content))
    (hrun : Run (EncodeStep gzip content) (EncodeSystem.init n gzFile) h s)
    (hundisturbed : Guarded EncodeSystem.Undisturbed h) :
    s.Sound (gzip content) ∧ s.Complete (gzip content) := by
  have hstep : ∀ s (a : EncodeAction n) s', EncodeStep gzip content s a s' → s.Undisturbed a →
      s.Sound (gzip content) ∧ s.Complete (gzip content) →
        s'.Sound (gzip content) ∧ s'.Complete (gzip content) := by
    rintro s a s' hstep hundisturbed ⟨hsound, hcomplete⟩
    exact ⟨hsound.step hstep, hcomplete.step hsound hundisturbed hstep⟩
  exact hrun.invariant_of_guard ⟨EncodeSystem.sound_init hstart, nofun⟩ hstep hundisturbed

/-- **The compressed copy with several threads.** In every run whose steps are undisturbed, from a
copy that is absent or complete, whoever has taken `fstat` has got a complete copy. -/
theorem complete_of_undisturbed {gzFile : Option Bytes}
    {h : List (Transition (EncodeSystem n) (EncodeAction n))}
    (hstart : gzFile = none ∨ gzFile = some (gzip content))
    (hrun : Run (EncodeStep gzip content) (EncodeSystem.init n gzFile) h s)
    (hundisturbed : Guarded EncodeSystem.Undisturbed h) : s.Complete (gzip content) :=
  (EncodeSystem.sound_and_complete hstart hrun hundisturbed).2

end Invariant

/-- The second thread finds the copy that the first one has created, and waits until it is closed. -/
def patientThreads : List (EncodeAction 2) :=
  [⟨firstThread, 0, 0⟩, ⟨firstThread, 0, 0⟩, ⟨secondThread, 0, 0⟩, ⟨firstThread, 5, 3⟩,
    ⟨firstThread, 0, 0⟩, ⟨firstThread, 0, 0⟩, ⟨secondThread, 0, 0⟩, ⟨secondThread, 0, 0⟩]

theorem complete_patientThreads :
    ∃ s : EncodeSystem 2, s.threads 1 = .sending 6 ∧
      s.Complete (localResponseEnv.gzip (bytes "hello")) := by
  obtain ⟨h, s, hrun, hundisturbed, hp⟩ := exists_run_of_guarded
    (EncodeSystem.next localResponseEnv.gzip (bytes "hello")) EncodeSystem.Undisturbed
    (EncodeSystem.init 2 none) patientThreads (p := fun s => s.threads 1 = .sending 6)
    (by decide +kernel)
  exact ⟨s, of_decide_eq_true hp, complete_of_undisturbed (Or.inl rfl) hrun hundisturbed⟩

/-- The second thread takes `fstat` of the copy that the first one has just created. -/
def hastyThreads : List (EncodeAction 2) :=
  [⟨firstThread, 0, 0⟩, ⟨firstThread, 0, 0⟩, ⟨secondThread, 0, 0⟩, ⟨secondThread, 0, 0⟩,
    ⟨secondThread, 0, 0⟩]

/-- It sends an empty body. -/
theorem not_complete_hastyThreads :
    ¬ ∀ (n : ℕ) (gzip : Bytes → Bytes) (content : Bytes) (gzFile : Option Bytes)
      (h : List (Transition (EncodeSystem n) (EncodeAction n))) (s : EncodeSystem n),
      gzFile = none ∨ gzFile = some (gzip content) →
        Run (EncodeStep gzip content) (EncodeSystem.init n gzFile) h s →
          s.Complete (gzip content) := by
  intro hcomplete
  obtain ⟨h, s, hrun, hp⟩ := exists_run_of_any
    (EncodeSystem.next localResponseEnv.gzip (bytes "hello")) (EncodeSystem.init 2 none)
    hastyThreads (p := fun s => s.threads 1 = .sending 0) (by decide +kernel)
  have hempty : s.threads 1 = .sending 0 := of_decide_eq_true hp
  obtain ⟨hlength, -⟩ := hcomplete 2 _ _ _ h s (Or.inl rfl) hrun 1 0 hempty
  exact absurd hlength (by decide +kernel)

/-! ### One thread -/

theorem undisturbed_of_single (s : EncodeSystem 1) (a : EncodeAction 1) : s.Undisturbed a := by
  have hsame : ∀ t, t = a.thread := fun t => Subsingleton.elim t a.thread
  unfold EncodeSystem.Undisturbed
  cases hpc : s.threads a.thread with
  | gzopen =>
    intro t
    rw [hsame t, hpc]
    exact id
  | fstat =>
    intro creator _
    rw [hsame creator, hpc]
    exact id
  | _ => trivial

/-- **A thread alone** gets the copy that `gzipCopy` says. -/
theorem gzipCopy_of_single {env : ResponseEnv} {disk : Disk} {gzipPath content : Bytes}
    {h : List (Transition (EncodeSystem 1) (EncodeAction 1))} {s : EncodeSystem 1} {t : Fin 1}
    {bodyLength : ℕ} (hopens : env.gzopens)
    (hstart : disk.openFile gzipPath = .error .enoent ∨
      disk.contentAt (disk.place gzipPath) = some (env.gzip content))
    (hrun : Run (EncodeStep env.gzip content)
      (EncodeSystem.init 1 (disk.contentAt (disk.place gzipPath))) h s)
    (hsending : s.threads t = .sending bodyLength) :
    ∃ body disk', gzipCopy env disk gzipPath content = some (body, disk') ∧
      disk'.contentAt (disk.place gzipPath) = s.gzFile ∧ bodyLength = body.length := by
  have hcopy : disk.contentAt (disk.place gzipPath) = none ∨
      disk.contentAt (disk.place gzipPath) = some (env.gzip content) := by
    refine hstart.imp_left fun hnone => ?_
    unfold Disk.openFile at hnone
    unfold Disk.contentAt
    rw [hnone]
    rfl
  obtain ⟨-, hcomplete⟩ := EncodeSystem.sound_and_complete hcopy hrun
    fun e _ => undisturbed_of_single e.pre e.act
  obtain ⟨hlength, hfile⟩ := hcomplete t bodyLength hsending
  rcases hstart with hnone | hsome
  · refine ⟨env.gzip content,
      disk.setFile gzipPath (.ok ⟨env.gzip content, env.now, env.now⟩), ?_, ?_, hlength⟩
    · unfold gzipCopy
      rw [hnone]
      simp only [hopens, if_true]
    · rw [hfile, contentAt_setFile]
  · obtain ⟨copy, hopen, hcontent⟩ := Option.map_eq_some_iff.mp hsome
    have hopen' : disk.openFile gzipPath = .ok copy := by
      unfold Disk.openFile
      cases hplace : disk.file (disk.place gzipPath) with
      | error errno =>
        rw [hplace] at hopen
        cases hopen
      | ok file =>
        rw [hplace] at hopen
        exact congrArg Except.ok (Option.some.inj hopen)
    refine ⟨copy.content, disk, ?_, hsome.trans hfile.symm, ?_⟩
    · unfold gzipCopy
      rw [hopen']
    · rw [hcontent]
      exact hlength

end UbServer
