import UbServer.Response
import UbServer.Lib.Runs

/-!
# The cache of compressed files

A history of changes to the files and of requests that accept gzip, handled one after the other, from
an empty cache. A write leaves the access time as it is; a request may advance the access time of the
file it opens. `gzip` is what `gzwrite` and `gzclose` make of a file, `gunzip` undoes it.

* `siteNext`: what an event does to the disk.
* `Fresh`: a request is answered with the present content of its resource.
* `served`: the place of the copy that a request uses, and the content of its resource.
* `CacheApart`: the copies have places of their own, on which no file of the site lies.
* `fresh_iff_name_decides`: all requests of a history are answered with fresh content exactly when the
  place of the copy decides the content.
-/

namespace UbServer

open Runs

/-- A change of a file, or a request: the parsed record, what other calls answer, and the access time
afterwards of the file opened for it, if it advances. -/
inductive SiteEvent where
  | write (path content : Bytes) (stMtime : ℤ)
  | create (path : Bytes) (file : File)
  | remove (path : Bytes)
  | request (connection : QueueConnectionElementType) (env : ResponseEnv) (stAtime : Option ℤ)

/-- The path opened for a request, and the file found there. -/
def requestedResource (options : Options) (env : ResponseEnv) (disk : Disk)
    (connection : QueueConnectionElementType) : Option (Bytes × File) := do
  let absolutePath ← connection.absolutePath
  let (path, file, _) ← selectResource options env disk absolutePath
  return (path, file)

/-- The file at the path after it was read. -/
def Disk.read (disk : Disk) (path : Bytes) (file : File) (stAtime : Option ℤ) : Disk :=
  match stAtime with
  | some stAtime => disk.setFile path (.ok { file with stAtime := stAtime })
  | none => disk

section Site

variable (options : Options) (gzip gunzip : Bytes → Bytes)

/-- The disk after an event, if the event can happen. -/
def siteNext (disk : Disk) : SiteEvent → Option Disk
  | .write path content stMtime =>
    match disk.openFile path with
    | .ok file => some (disk.setFile path (.ok { file with content := content, stMtime := stMtime }))
    | .error _ => none
  | .create path file =>
    match disk.openFile path with
    | .ok _ => none
    | .error _ => some (disk.setFile path (.ok file))
  | .remove path =>
    match disk.openFile path with
    | .ok _ => some (disk.setFile path (.error .enoent))
    | .error _ => none
  | .request connection env stAtime => do
    let (path, file) ← requestedResource options env disk connection
    let built ← makeResponse options { env with gzip := gzip } disk connection
    if acceptsGzip connection.requestHeaders ∧ ∀ t ∈ stAtime, file.stAtime ≤ t then
      return built.disk.read path file stAtime
    else none

/-- An event, as a step relation. -/
abbrev SiteStep (disk : Disk) (event : SiteEvent) (disk' : Disk) : Prop :=
  siteNext options gzip disk event = some disk'

/-- What is opened for a request decompresses to the content of its resource. -/
def Fresh (e : Transition Disk SiteEvent) : Prop :=
  match e.act with
  | .request connection env _ =>
    ∀ built ∈ makeResponse options { env with gzip := gzip } e.pre connection,
      ∀ r ∈ requestedResource options env e.pre connection, gunzip built.body = r.2.content
  | _ => True

instance : DecidablePred (Fresh options gzip gunzip)
  | ⟨_, .request .., _⟩ => inferInstanceAs (Decidable (∀ built ∈ _, ∀ r ∈ _, _ = _))
  | ⟨_, .write .., _⟩ | ⟨_, .create .., _⟩ | ⟨_, .remove _, _⟩ => inferInstanceAs (Decidable True)

/-- The place of the compressed copy for a request, and the content of its resource. -/
def served (e : Transition Disk SiteEvent) : Option (Paths.Place Bytes × Bytes) :=
  match e.act with
  | .request connection env _ => do
    let absolutePath ← connection.absolutePath
    let (_, file) ← requestedResource options env e.pre connection
    let gzipPath ← gzipPathOf options env absolutePath file.stAtime
    return (e.pre.place gzipPath, file.content)
  | _ => none

/-- The place of the file of the site that is changed, or opened as a resource. -/
def siteFile (e : Transition Disk SiteEvent) : Option (Paths.Place Bytes) :=
  match e.act with
  | .write path _ _ | .create path _ | .remove path => some (e.pre.place path)
  | .request connection env _ =>
    (requestedResource options env e.pre connection).map fun r => e.pre.place r.1

/-- The copies lie on the places of the cache, and the files of the site elsewhere. -/
structure CacheApart (cache : Set (Paths.Place Bytes)) (h : List (Transition Disk SiteEvent)) :
    Prop where
  copies : ∀ e ∈ h, ∀ r ∈ served options e, r.1 ∈ cache
  files : ∀ e ∈ h, ∀ place ∈ siteFile options e, place ∉ cache

/-- Nothing lies on the places of the cache. -/
def EmptyCache (cache : Set (Paths.Place Bytes)) (disk : Disk) : Prop :=
  ∀ place ∈ cache, disk.file place = .error .enoent

/-- Requests that use a copy at the same place have resources with the same content. -/
def NameDecides (h : List (Transition Disk SiteEvent)) : Prop :=
  ∀ e₁ ∈ h, ∀ e₂ ∈ h, ∀ r₁ ∈ served options e₁, ∀ r₂ ∈ served options e₂,
    r₁.1 = r₂.1 → r₁.2 = r₂.2

instance (h : List (Transition Disk SiteEvent)) : Decidable (NameDecides options h) :=
  inferInstanceAs
    (Decidable (∀ e₁ ∈ h, ∀ e₂ ∈ h, ∀ r₁ ∈ served options e₁, ∀ r₂ ∈ served options e₂, _))

end Site

/-! ### What an event does to the disk -/

section Files

variable {disk : Disk} {path : Bytes} {place : Paths.Place Bytes}

theorem contentAt_read_of_ne {file : File} {stAtime : Option ℤ} (h : place ≠ disk.place path) :
    (disk.read path file stAtime).contentAt place = disk.contentAt place := by
  cases stAtime with
  | none => rfl
  | some stAtime => exact contentAt_setFile_of_ne h

theorem contentAt_of_emptyCache {cache : Set (Paths.Place Bytes)} (h : EmptyCache cache disk)
    (hplace : place ∈ cache) : disk.contentAt place = none := by
  unfold Disk.contentAt
  rw [h place hplace]
  rfl

end Files

section Cache

variable {options : Options} {gzip gunzip : Bytes → Bytes} {cache : Set (Paths.Place Bytes)}

theorem makeResponse_gzip {env : ResponseEnv} {disk : Disk} {connection : QueueConnectionElementType}
    {built : Built} (haccepts : acceptsGzip connection.requestHeaders)
    (h : makeResponse options env disk connection = some built) :
    ∃ absolutePath path file gzipPath, connection.absolutePath = some absolutePath ∧
      requestedResource options env disk connection = some (path, file) ∧
      gzipPathOf options env absolutePath file.stAtime = some gzipPath ∧
      gzipCopy env disk gzipPath file.content = some (built.body, built.disk) := by
  obtain ⟨absolutePath, opened, file, code, size, -, -, -, printed, encoded, hpath, hresource, -, -,
    hencoded, -, -, -, rfl⟩ := makeResponse_inv h
  have hrequested : requestedResource options env disk connection = some (opened, file) := by
    unfold requestedResource
    simp only [hpath, Option.bind_eq_bind, Option.bind_some, hresource]
    rfl
  unfold encodeBody at hencoded
  rw [if_pos (show acceptsGzip connection.requestHeaders from haccepts)] at hencoded
  unfold makeContentEncoding at hencoded
  simp only [hpath, Option.bind_eq_bind, Option.bind_some] at hencoded
  obtain ⟨gzipPath, hgzipPath, hencoded⟩ := Option.bind_eq_some_iff.mp hencoded
  obtain ⟨⟨body, disk'⟩, hcopy, hencoded⟩ := Option.bind_eq_some_iff.mp hencoded
  obtain ⟨size', -, hencoded⟩ := Option.bind_eq_some_iff.mp hencoded
  obtain rfl := Option.some.inj hencoded
  exact ⟨absolutePath, opened, file, gzipPath, hpath, hrequested, hgzipPath, hcopy⟩

/-- What an event does: a request makes its copy and reads its resource, any other event changes one
file of the site. -/
theorem siteStep_cases {disk disk' : Disk} {event : SiteEvent}
    (h : SiteStep options gzip disk event disk') :
    (∃ connection env stAtime path file built, event = .request connection env stAtime ∧
      requestedResource options env disk connection = some (path, file) ∧
      makeResponse options { env with gzip := gzip } disk connection = some built ∧
      acceptsGzip connection.requestHeaders ∧ disk' = built.disk.read path file stAtime) ∨
    (∃ path file, siteFile options ⟨disk, event, disk'⟩ = some (disk.place path) ∧
      (∀ connection env stAtime, event ≠ .request connection env stAtime) ∧
      disk' = disk.setFile path file) := by
  unfold SiteStep siteNext at h
  cases event with
  | write path content stMtime =>
    simp only at h
    split at h
    · obtain rfl := Option.some.inj h
      exact Or.inr ⟨path, _, rfl, by simp, rfl⟩
    · cases h
  | create path file =>
    simp only at h
    split at h
    · cases h
    · obtain rfl := Option.some.inj h
      exact Or.inr ⟨path, _, rfl, by simp, rfl⟩
  | remove path =>
    simp only at h
    split at h
    · obtain rfl := Option.some.inj h
      exact Or.inr ⟨path, _, rfl, by simp, rfl⟩
    · cases h
  | request connection env stAtime =>
    obtain ⟨⟨path, file⟩, hresource, h⟩ := Option.bind_eq_some_iff.mp h
    obtain ⟨built, hbuilt, h⟩ := Option.bind_eq_some_iff.mp h
    split at h
    · rename_i haccepts
      obtain rfl := Option.some.inj h
      exact Or.inl ⟨connection, env, stAtime, path, file, built, rfl, hresource, hbuilt, haccepts.1,
        rfl⟩
    · cases h

/-! ### The cache along a history -/

/-- How the cache belongs to the requests of the history. -/
structure CacheOf (options : Options) (gzip gunzip : Bytes → Bytes) (cache : Set (Paths.Place Bytes))
    (h : List (Transition Disk SiteEvent)) (disk : Disk) : Prop where
  /-- A request gets the copy that now lies at the place it uses. -/
  used : ∀ e ∈ h, ∀ r ∈ served options e, ∃ z, disk.contentAt r.1 = some z ∧
    (Fresh options gzip gunzip e ↔ gunzip z = r.2)
  /-- A copy in the cache was made for a request that uses its place. -/
  made : ∀ place ∈ cache, ∀ z, disk.contentAt place = some z →
    ∃ e ∈ h, ∃ content, served options e = some (place, content) ∧ z = gzip content
  /-- The other events are no requests. -/
  other : ∀ e ∈ h, served options e = none → Fresh options gzip gunzip e

theorem cacheOf_snoc_of_served {h : List (Transition Disk SiteEvent)} {disk disk' : Disk}
    {e : Transition Disk SiteEvent} (place : Paths.Place Bytes) (content z : Bytes)
    (hapart : CacheApart options cache h) (hcache : CacheOf options gzip gunzip cache h disk)
    (hserved : served options e = some (place, content))
    (hfresh : Fresh options gzip gunzip e ↔ gunzip z = content)
    (hnow : disk'.contentAt place = some z)
    (hcopy : disk.contentAt place = some z ∨ disk.contentAt place = none ∧ z = gzip content)
    (hframe : ∀ q ∈ cache, q ≠ place → disk'.contentAt q = disk.contentAt q) :
    CacheOf options gzip gunzip cache (h ++ [e]) disk' := by
  -- what was in the cache stays
  have hkeeps : ∀ q ∈ cache, ∀ z', disk.contentAt q = some z' → disk'.contentAt q = some z' := by
    intro q hq z' hz'
    by_cases hname : q = place
    · subst hname
      rcases hcopy with hz | ⟨hnone, -⟩
      · rw [hnow, ← hz, hz']
      · rw [hnone] at hz'
        cases hz'
    · rw [hframe q hq hname, hz']
  refine ⟨fun e' he' r hr => ?_, fun q hq z' hz' => ?_, fun e' he' hnone => ?_⟩
  · rcases List.mem_append.mp he' with he' | he'
    · obtain ⟨z', hz', hiff⟩ := hcache.used e' he' r hr
      exact ⟨z', hkeeps _ (hapart.copies e' he' r hr) _ hz', hiff⟩
    · obtain rfl := List.mem_singleton.mp he'
      obtain rfl := Option.some.inj (hserved.symm.trans hr)
      exact ⟨z, hnow, hfresh⟩
  · have hold : disk.contentAt q = some z' → ∃ e' ∈ h ++ [e], ∃ content',
        served options e' = some (q, content') ∧ z' = gzip content' := fun hold => by
      obtain ⟨e', he', content', hs, hz⟩ := hcache.made q hq z' hold
      exact ⟨e', List.mem_append_left _ he', content', hs, hz⟩
    by_cases hname : q = place
    · subst hname
      obtain rfl := Option.some.inj (hnow.symm.trans hz')
      rcases hcopy with hz | ⟨-, hz⟩
      · exact hold hz
      · exact ⟨e, List.mem_append_right _ (List.mem_singleton_self e), content, hserved, hz⟩
    · exact hold (by rw [← hframe q hq hname, hz'])
  · rcases List.mem_append.mp he' with he' | he'
    · exact hcache.other e' he' hnone
    · obtain rfl := List.mem_singleton.mp he'
      rw [hserved] at hnone
      cases hnone

theorem cacheOf_snoc_of_other {h : List (Transition Disk SiteEvent)} {disk disk' : Disk}
    {e : Transition Disk SiteEvent} (hapart : CacheApart options cache h)
    (hcache : CacheOf options gzip gunzip cache h disk)
    (hserved : served options e = none) (hfresh : Fresh options gzip gunzip e)
    (hframe : ∀ q ∈ cache, disk'.contentAt q = disk.contentAt q) :
    CacheOf options gzip gunzip cache (h ++ [e]) disk' := by
  refine ⟨fun e' he' r hr => ?_, fun q hq z hz => ?_, fun e' he' hnone => ?_⟩
  · rcases List.mem_append.mp he' with he' | he'
    · rw [hframe _ (hapart.copies e' he' r hr)]
      exact hcache.used e' he' r hr
    · obtain rfl := List.mem_singleton.mp he'
      rw [hserved] at hr
      cases hr
  · rw [hframe q hq] at hz
    obtain ⟨e', he', content, hs, hz⟩ := hcache.made q hq z hz
    exact ⟨e', List.mem_append_left _ he', content, hs, hz⟩
  · rcases List.mem_append.mp he' with he' | he'
    · exact hcache.other e' he' hnone
    · obtain rfl := List.mem_singleton.mp he'
      exact hfresh

theorem served_of_not_request (options : Options) (gzip gunzip : Bytes → Bytes)
    (e : Transition Disk SiteEvent)
    (h : ∀ connection env stAtime, e.act ≠ .request connection env stAtime) :
    served options e = none ∧ Fresh options gzip gunzip e := by
  obtain ⟨pre, event, post⟩ := e
  cases event with
  | request connection env stAtime => exact absurd rfl (h connection env stAtime)
  | write path content stMtime => exact ⟨rfl, trivial⟩
  | create path file => exact ⟨rfl, trivial⟩
  | remove path => exact ⟨rfl, trivial⟩

theorem CacheApart.of_snoc {h : List (Transition Disk SiteEvent)} {e : Transition Disk SiteEvent}
    (hapart : CacheApart options cache (h ++ [e])) : CacheApart options cache h :=
  ⟨fun e' he' => hapart.copies e' (List.mem_append_left _ he'),
    fun e' he' => hapart.files e' (List.mem_append_left _ he')⟩

theorem cacheOf_snoc_of_request {h : List (Transition Disk SiteEvent)} {disk disk' : Disk}
    {connection : QueueConnectionElementType} {env : ResponseEnv} {stAtime : Option ℤ} {path : Bytes}
    {file : File} {built : Built}
    (hapart : CacheApart options cache (h ++ [⟨disk, .request connection env stAtime, disk'⟩]))
    (hcache : CacheOf options gzip gunzip cache h disk)
    (hresource : requestedResource options env disk connection = some (path, file))
    (hbuilt : makeResponse options { env with gzip := gzip } disk connection = some built)
    (haccepts : acceptsGzip connection.requestHeaders)
    (hdisk : disk' = built.disk.read path file stAtime) :
    CacheOf options gzip gunzip cache (h ++ [⟨disk, .request connection env stAtime, disk'⟩])
      disk' := by
  obtain ⟨absolutePath, path', file', gzipPath, hpath, hresource', hgzipPath, hcopy⟩ :=
    makeResponse_gzip haccepts hbuilt
  obtain ⟨rfl, rfl⟩ := Prod.mk.inj (Option.some.inj (hresource.symm.trans hresource'))
  have hserved : served options ⟨disk, .request connection env stAtime, disk'⟩ =
      some (disk.place gzipPath, file.content) := by
    have hgzipPath' : gzipPathOf options env absolutePath file.stAtime = some gzipPath := hgzipPath
    simp only [served, hpath, hresource, Option.bind_eq_bind, Option.bind_some, hgzipPath']
    rfl
  have hlast : (⟨disk, .request connection env stAtime, disk'⟩ : Transition Disk SiteEvent) ∈
      h ++ [⟨disk, .request connection env stAtime, disk'⟩] :=
    List.mem_append_right _ (List.mem_singleton_self _)
  have hin : disk.place gzipPath ∈ cache := hapart.copies _ hlast _ hserved
  have hout : disk.place path ∉ cache := by
    refine hapart.files _ hlast _ ?_
    simp only [siteFile, hresource]
    rfl
  -- reading the resource leaves the cache as it is
  have hread : ∀ q ∈ cache, disk'.contentAt q = built.disk.contentAt q := by
    intro q hq
    rw [hdisk]
    refine contentAt_read_of_ne fun hq' => hout ?_
    rw [← gzipCopy_place hcopy, ← hq']
    exact hq
  refine cacheOf_snoc_of_served (disk.place gzipPath) file.content built.body hapart.of_snoc hcache
    hserved ?_ ?_ ?_ ?_
  · simp only [Fresh, hbuilt, hresource, Option.mem_some_iff, forall_eq']
  · rw [hread _ hin]
    rcases gzipCopy_inv hcopy with ⟨hz, hsame⟩ | ⟨-, -, hmade⟩
    · rw [hsame, hz]
    · rw [hmade, contentAt_setFile]
  · rcases gzipCopy_inv hcopy with ⟨hz, -⟩ | ⟨hnone, hz, -⟩
    · exact Or.inl hz
    · exact Or.inr ⟨hnone, hz⟩
  · intro q hq hne
    rw [hread q hq]
    rcases gzipCopy_inv hcopy with ⟨-, hsame⟩ | ⟨-, -, hmade⟩
    · rw [hsame]
    · rw [hmade, contentAt_setFile_of_ne hne]

/-- **The cache along a history.** -/
theorem cacheOf_run {disk₀ disk : Disk} {h : List (Transition Disk SiteEvent)}
    (hempty : EmptyCache cache disk₀) (hr : Run (SiteStep options gzip) disk₀ h disk)
    (hapart : CacheApart options cache h) : CacheOf options gzip gunzip cache h disk := by
  induction hr with
  | nil =>
    refine ⟨by simp, fun place hplace z hz => ?_, by simp⟩
    rw [contentAt_of_emptyCache hempty hplace] at hz
    cases hz
  | @snoc h disk disk' event _ hst ih =>
    have hcache := ih hapart.of_snoc
    rcases siteStep_cases hst with
      ⟨connection, env, stAtime, path, file, built, rfl, hresource, hbuilt, haccepts, hdisk⟩ |
      ⟨path, file, hfile, hother, hdisk⟩
    · exact cacheOf_snoc_of_request hapart hcache hresource hbuilt haccepts hdisk
    · obtain ⟨hserved, hfresh⟩ :=
        served_of_not_request options gzip gunzip ⟨disk, event, disk'⟩ hother
      refine cacheOf_snoc_of_other hapart.of_snoc hcache hserved hfresh fun q hq => ?_
      rw [hdisk]
      refine contentAt_setFile_of_ne fun hq' => ?_
      refine hapart.files _ (List.mem_append_right _ (List.mem_singleton_self _)) _ hfile ?_
      rwa [← hq']

/-- **Freshness of the cache.** Along a history from an empty cache that lies apart from the site,
every request is answered with the present content of its resource exactly when requests whose copies
have one place have resources with the same content. -/
theorem fresh_iff_name_decides (hgunzip : ∀ content, gunzip (gzip content) = content)
    {disk₀ disk : Disk} {h : List (Transition Disk SiteEvent)} (hempty : EmptyCache cache disk₀)
    (hr : Run (SiteStep options gzip) disk₀ h disk) (hapart : CacheApart options cache h) :
    (∀ e ∈ h, Fresh options gzip gunzip e) ↔ NameDecides options h := by
  have hcache : CacheOf options gzip gunzip cache h disk := cacheOf_run hempty hr hapart
  constructor
  · intro hfresh e₁ he₁ e₂ he₂ r₁ hr₁ r₂ hr₂ hname
    obtain ⟨z₁, hz₁, hiff₁⟩ := hcache.used e₁ he₁ r₁ hr₁
    obtain ⟨z₂, hz₂, hiff₂⟩ := hcache.used e₂ he₂ r₂ hr₂
    obtain rfl : z₁ = z₂ := Option.some.inj (hz₁.symm.trans (hname ▸ hz₂))
    exact (hiff₁.mp (hfresh e₁ he₁)).symm.trans (hiff₂.mp (hfresh e₂ he₂))
  · intro hdecides e he
    cases hserved : served options e with
    | none => exact hcache.other e he hserved
    | some r =>
      obtain ⟨z, hz, hiff⟩ := hcache.used e he r hserved
      obtain ⟨e', he', content, hserved', rfl⟩ :=
        hcache.made r.1 (hapart.copies e he r hserved) z hz
      refine hiff.mpr ?_
      rw [hgunzip]
      exact hdecides e' he' e he _ hserved' r hserved rfl

end Cache

/-! ### A file that changes -/

/-- `gzip` on the two files of the example, as `zlib` compresses them; any other file is marked. -/
def exampleGzip (content : Bytes) : Bytes :=
  if content = bytes "hello" then
    [31, 139, 8, 0, 0, 0, 0, 0, 0, 3, 203, 72, 205, 201, 201, 7, 0, 134, 166, 16, 54, 5, 0, 0, 0]
  else if content = bytes "bye" then
    [31, 139, 8, 0, 0, 0, 0, 0, 0, 3, 75, 170, 76, 5, 0, 52, 145, 55, 119, 3, 0, 0, 0]
  else 0 :: content

def exampleGunzip (compressed : Bytes) : Bytes :=
  if compressed = exampleGzip (bytes "hello") then bytes "hello"
  else if compressed = exampleGzip (bytes "bye") then bytes "bye"
  else compressed.drop 1

theorem exampleGunzip_exampleGzip (content : Bytes) :
    exampleGunzip (exampleGzip content) = content := by
  by_cases hhello : content = bytes "hello"
  · subst hhello
    decide +kernel
  · by_cases hbye : content = bytes "bye"
    · subst hbye
      decide +kernel
    · have hmarked : exampleGzip content = 0 :: content := by
        unfold exampleGzip
        rw [if_neg hhello, if_neg hbye]
      have h₁ : exampleGzip (bytes "hello") = 31 :: (exampleGzip (bytes "hello")).drop 1 := by
        decide +kernel
      have h₂ : exampleGzip (bytes "bye") = 31 :: (exampleGzip (bytes "bye")).drop 1 := by
        decide +kernel
      unfold exampleGunzip
      rw [hmarked, if_neg (by rw [h₁]; simp), if_neg (by rw [h₂]; simp)]
      rfl

/-- A request for the index page that accepts gzip. -/
def gzipRequest : QueueConnectionElementType :=
  { freshConnection 5 100 .zeroed with
    protocolVersion := bytes "HTTP/1.1"
    absolutePath := some (bytes "/www/index.html")
    requestHeaders := [⟨bytes "accept-encoding", bytes "gzip"⟩] }

/-- The page is requested, changed, and requested again; the first read advances the access time or
it does not. -/
def pageChanged (stAtime : Option ℤ) : List SiteEvent :=
  [.request gzipRequest localResponseEnv stAtime,
    .write (bytes "/www/index.html") (bytes "bye") 8,
    .request gzipRequest localResponseEnv none]

/-- What lies below the cache directory. -/
def srvCache : Set (Paths.Place Bytes) := {place | place.Within (Paths.resolve (bytes "/srv/cache"))}

theorem emptyCache_wwwDisk : EmptyCache srvCache wwwDisk := by
  intro place hplace
  have hindex : place ≠ Paths.resolve (bytes "/www/index.html") := by
    rintro rfl
    exact absurd hplace (by unfold srvCache; decide +kernel)
  have herror : place ≠ Paths.resolve (bytes "/www/error/404.html") := by
    rintro rfl
    exact absurd hplace (by unfold srvCache; decide +kernel)
  unfold wwwDisk
  simp only [if_neg hindex, if_neg herror]

/-- Where the read advances the access time, the changed page is compressed again. -/
theorem fresh_pageChanged :
    ∃ h disk, Run (SiteStep wwwOptions exampleGzip) wwwDisk h disk ∧ h ≠ [] ∧
      ∀ e ∈ h, Fresh wwwOptions exampleGzip exampleGunzip e := by
  have he : (exec (siteNext wwwOptions exampleGzip) wwwDisk (pageChanged (some 8))).isSome := by
    decide +kernel
  have hr : Run (SiteStep wwwOptions exampleGzip) wwwDisk
      (history (siteNext wwwOptions exampleGzip) wwwDisk (pageChanged (some 8))) _ :=
    run_of_isSome he
  have hcopies : ∀ e ∈ history (siteNext wwwOptions exampleGzip) wwwDisk (pageChanged (some 8)),
      ∀ r ∈ served wwwOptions e, r.1.Within (Paths.resolve (bytes "/srv/cache")) := by decide +kernel
  have hfiles : ∀ e ∈ history (siteNext wwwOptions exampleGzip) wwwDisk (pageChanged (some 8)),
      ∀ place ∈ siteFile wwwOptions e, ¬ place.Within (Paths.resolve (bytes "/srv/cache")) := by
    decide +kernel
  refine ⟨_, _, hr, List.ne_nil_of_length_pos ?_,
    (fresh_iff_name_decides exampleGunzip_exampleGzip emptyCache_wwwDisk hr
      ⟨hcopies, hfiles⟩).mpr (by decide +kernel)⟩
  rw [length_history he]
  exact Nat.succ_pos 2

/-- Where it does not, the second request gets the old page. -/
theorem stale_pageChanged :
    ∃ h disk, Run (SiteStep wwwOptions exampleGzip) wwwDisk h disk ∧
      ¬ ∀ e ∈ h, Fresh wwwOptions exampleGzip exampleGunzip e :=
  ⟨history (siteNext wwwOptions exampleGzip) wwwDisk (pageChanged none), _,
    run_of_isSome (by decide +kernel), by decide +kernel⟩

end UbServer
