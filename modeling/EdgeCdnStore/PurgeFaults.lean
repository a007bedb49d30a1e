-- A purge whose calls fail. It reads the length of the body and removes four
-- things, and goes on whatever these calls give. So the disk may keep some of the
-- files, and the gauge is told only of a length that was read.
import EdgeCdnStore.PurgeRaces

open edge_cdn_store.programs edge_cdn_store.programs.Program edge_cdn_store.io
open edge_cdn_store.file_tree edge_cdn_store.file_tree.FileTree
open edge_cdn_store.logger edge_cdn_store.disk_cache edge_cdn_store.operations
open edge_cdn_store.finish_faults edge_cdn_store.purge_races

namespace edge_cdn_store.purge_faults

/-! ## The failures -/

/-- Which of the five calls of a purge fail. -/
structure Failures where
  metadata : Option IoError
  body : Option IoError
  cache_meta : Option IoError
  hdr : Option IoError
  dir : Option IoError

/-- The removal of this file fails. -/
def Failures.removal (F : Failures) (p : PathBuf) : Option IoError :=
  if p.getLast? = some "body".toList then F.body
  else if p.getLast? = some "meta".toList then F.cache_meta
  else F.hdr

/-- What happens at one call. A call that fails changes nothing. -/
def Failures.choice (F : Failures) (e : Io) (c : Choice) : Choice :=
  match e with
  | .metadata _ => { c with fault := F.metadata.map fun e => ⟨e, none⟩ }
  | .remove_file p => { c with fault := (F.removal p).map fun e => ⟨e, none⟩ }
  | .remove_dir _ => { c with fault := F.dir.map fun e => ⟨e, none⟩ }
  | _ => c

/-- The operating system with these failures. -/
def faulty (F : Failures) : Environment Io Io.Reply Choice World :=
  fun e c w => answer e (F.choice e c) w

/-! ## What a purge leaves -/

/-- What is left of these files. -/
def Failures.left (F : Failures) (f : Files) : Files where
  body := if F.body = none then none else f.body
  cache_meta := if F.cache_meta = none then none else f.cache_meta
  hdr := if F.hdr = none then none else f.hdr

/-- The body was there, and its removal does not fail. -/
def Failures.Removes (F : Failures) (f : Files) : Prop := f.body.isSome = true ∧ F.body = none

/-- What the gauge loses: the length that was read of a body that was removed. -/
def Failures.paid (F : Failures) (f : Files) : Nat :=
  if F.body = none ∧ F.metadata = none then f.body_len else 0

section
variable {K M : Type} [CacheHashKey K] [CacheMeta M]
variable {cache : DiskCache} {hash : CombinedHash} {w : World} {F : Failures} {f : Files}

theorem guard_of_fault {α : Type} {c : Choice} {x : Fault} (h : c.fault = some x)
    (r : Except IoError α × World) : c.guard w r = (.error x.error, w) := by
  unfold Choice.guard
  rw [h]

/-- The length that is read of the body: nothing when it is not there or the call fails. -/
theorem metadata_faulty {Q : Except IoError Nat → World → Prop} (hw : cache.Laid w.tree)
    (hf : files_of cache w hash = f)
    (hok : ∀ len, len = (if F.metadata = none then f.body_len else 0) → Q (.ok len) w)
    (herr : ∀ e, 0 = (if F.metadata = none then f.body_len else 0) → Q (.error e) w) :
    wp (faulty F) (fun _ => True) (fs.metadata (cache.body hash)) Q w := by
  refine (wp_perform (Io.metadata _) _ _).mpr fun c _ => ?_
  unfold faulty
  cases hF : F.metadata with
  | some e =>
    have hnow : (F.choice (.metadata (cache.body hash)) c).fault = some ⟨e, none⟩ := by
      simp [Failures.choice, hF]
    simp only [answer, guard_of_fault hnow]
    apply herr
    simp [hF]
  | none =>
    have hcalm : Calm (F.choice (.metadata (cache.body hash)) c) := by
      simp [Failures.choice, Calm, hF]
    rw [answer_metadata_body hw hcalm, hf]
    unfold Files.body_len at hok herr
    cases hb : f.body with
    | some d =>
      apply hok
      simp [hF, hb]
    | none =>
      apply herr
      simp [hb]

/-- A call on the metrics, which never fails. -/
theorem inc_by_faulty {Q : Unit → World → Prop} (k : Counter) (n : Nat)
    (h : ∀ w', w'.tree = w.tree → w'.metrics.size_bytes = w.metrics.size_bytes → Q () w') :
    wp (faulty F) (fun _ => True) (inc_by k n) Q w :=
  fun _ _ => h _ rfl rfl

theorem size_bytes_sub_faulty {Q : Unit → World → Prop} (n : Int)
    (h : ∀ w', w'.tree = w.tree → w'.metrics.size_bytes = w.metrics.size_bytes - n → Q () w') :
    wp (faulty F) (fun _ => True) (size_bytes_sub n) Q w :=
  fun _ _ => h _ rfl (Int.sub_eq_add_neg).symm

theorem removal_entry (n : List Char) : F.removal (cache.entry hash n) =
    if n = "body".toList then F.body else if n = "meta".toList then F.cache_meta else F.hdr := by
  have hlast : (cache.entry hash n).getLast? = some n := by simp [DiskCache.entry]
  simp only [Failures.removal, hlast, Option.some.injEq]

/-- A file of the key goes, unless its removal fails. -/
theorem remove_file_faulty {Q : Except IoError Unit → World → Prop} {n : List Char} {g : Files}
    (fault : Option IoError) (hfault : F.removal (cache.entry hash n) = fault)
    (hw : cache.Laid w.tree) (hf : files_of cache w hash = f) (hstay : fault ≠ none → g = f)
    (hgone : fault = none → g = ⟨if n = "body".toList then none else f.body,
      if n = "meta".toList then none else f.cache_meta,
      if n = "hdr".toList then none else f.hdr⟩)
    (h : ∀ r w', cache.Laid w'.tree → w'.metrics = w.metrics → files_of cache w' hash = g →
      (r = .ok () ↔ fault = none ∧ (w.tree.content (cache.entry hash n)).isSome = true) → Q r w') :
    wp (faulty F) (fun _ => True) (fs.remove_file (cache.entry hash n)) Q w := by
  refine (wp_perform (Io.remove_file _) _ _).mpr fun c _ => ?_
  unfold faulty
  cases fault with
  | some e =>
    have hnow : (F.choice (.remove_file (cache.entry hash n)) c).fault = some ⟨e, none⟩ := by
      simp [Failures.choice, hfault]
    simp only [answer, guard_of_fault hnow]
    refine h _ w hw rfl ?_ (by simp)
    rw [hf, hstay (by simp)]
  | none =>
    have hcalm : Calm (F.choice (.remove_file (cache.entry hash n)) c) := by
      simp [Failures.choice, Calm, hfault]
    obtain ⟨r, w', hr, hlaid, hmetrics, hcontent, hdone⟩ := answer_remove_file hw hcalm
      (show cache.entry hash n ∈ cache.files from DiskCache.entry_mem_files)
    rw [hr]
    refine h r w' hlaid hmetrics ?_ ?_
    · rw [files_of_removed hcontent, hf, hgone rfl]
    · rcases hdone with ⟨d, hd, rfl⟩ | ⟨x, hnone, rfl⟩
      · simp [hd]
      · simp [hnone]

theorem remove_dir_faulty {Q : Except IoError Unit → World → Prop} (hash : CombinedHash)
    (hw : cache.Laid w.tree) (p : PathBuf)
    (h : ∀ r w', cache.Laid w'.tree → files_of cache w' hash = files_of cache w hash →
      w'.metrics = w.metrics → Q r w') :
    wp (faulty F) (fun _ => True) (fs.remove_dir p) Q w := by
  refine (wp_perform (Io.remove_dir _) _ _).mpr fun c _ => ?_
  unfold faulty
  cases hF : F.dir with
  | some e =>
    have hfault : (F.choice (.remove_dir p) c).fault = some ⟨e, none⟩ := by
      simp [Failures.choice, hF]
    simp only [answer, guard_of_fault hfault]
    exact h _ w hw rfl rfl
  | none =>
    have hcalm : Calm (F.choice (.remove_dir p) c) := by
      simp [Failures.choice, Calm, hF]
    obtain ⟨hlaid, hfiles, hmetrics⟩ := remove_dir_call hash hw hcalm p
    exact h _ _ hlaid hfiles hmetrics

/-- The removals after the body. -/
theorem purge_rest_faulty {Q : Unit → World → Prop} (hw : cache.Laid w.tree)
    (hf : files_of cache w hash = f)
    (h : ∀ w', cache.Laid w'.tree → w'.metrics = w.metrics → files_of cache w' hash =
      ⟨f.body, if F.cache_meta = none then none else f.cache_meta,
        if F.hdr = none then none else f.hdr⟩ → Q () w') :
    wp (faulty F) (fun _ => True)
      (DiskCache.purge_rest (cache.dir hash) (cache.meta_part hash) (cache.hdr hash)) Q w := by
  unfold DiskCache.purge_rest
  rw [wp_bind]
  refine remove_file_faulty (g := { f with cache_meta := if F.cache_meta = none then none
    else f.cache_meta }) F.cache_meta (removal_entry _) hw hf (fun hn => ?_) (fun hn => ?_)
    fun _ w1 hw1 hm1 hf1 _ => ?_
  · simp [hn]
  · rw [if_pos hn]
    rfl
  rw [wp_bind]
  refine remove_file_faulty (g := ⟨f.body, if F.cache_meta = none then none else f.cache_meta,
    if F.hdr = none then none else f.hdr⟩) F.hdr (removal_entry _) hw1 hf1 (fun hn => ?_)
    (fun hn => ?_) fun _ w2 hw2 hm2 hf2 _ => ?_
  · simp [hn]
  · rw [if_pos hn]
    rfl
  rw [wp_bind]
  -- the last removal is of the directory, and it changes no file
  apply remove_dir_faulty hash hw2
  intro _ w3 hw3 hf3 hm3
  exact h w3 hw3 (hm3.trans (hm2.trans hm1)) (hf3.trans hf2)

theorem paid_of_removed (hF : F.body = none) :
    F.paid f = if F.metadata = none then f.body_len else 0 := by
  unfold Failures.paid
  by_cases hmd : F.metadata = none <;> simp [hF, hmd]

theorem paid_of_kept (hnot : ¬ F.Removes f) : F.paid f = 0 := by
  unfold Failures.paid
  by_cases hF : F.body = none
  · have hnone : f.body = none := by
      by_contra hne
      exact hnot ⟨Option.isSome_iff_ne_none.mpr hne, hF⟩
    simp [Files.body_len, hnone]
  · simp [hF]

/-- What a purge does once it has read a length of the body, or none. The program goes on with `k`
behind the removal. -/
theorem purge_measured_faulty {len : Nat} {k : Except IoError Unit → Prog (Result Bool)}
    (hw : cache.Laid w.tree) (hf : files_of cache w hash = f)
    (hlen : len = if F.metadata = none then f.body_len else 0)
    (hok : k (.ok ()) = (do
      inc .evictions
      inc_by .evicted_bytes len
      size_bytes_sub len
      DiskCache.purge_rest (cache.dir hash) (cache.meta_part hash) (cache.hdr hash)
      return .ok true))
    (herr : ∀ e, k (.error e) = (do
      DiskCache.purge_rest (cache.dir hash) (cache.meta_part hash) (cache.hdr hash)
      return .ok false)) :
    wp (faulty F) (fun _ => True) (fs.remove_file (cache.body hash) >>= k) (fun r w' =>
      ∃ b, r = .ok b ∧ (b = true ↔ F.Removes f) ∧
        cache.Laid w'.tree ∧ files_of cache w' hash = F.left f ∧
        w'.metrics.size_bytes = w.metrics.size_bytes - F.paid f) w := by
  rw [wp_bind]
  refine remove_file_faulty (g := { f with body := if F.body = none then none else f.body })
    F.body (removal_entry _) hw hf (fun hn => ?_) (fun hn => ?_) fun r w2 hw2 hm2 hf2 hr => ?_
  · simp [hn]
  · rw [if_pos hn]
    rfl
  have hbody : w.tree.content (cache.entry hash "body".toList) = f.body := congrArg Files.body hf
  rw [hbody] at hr
  cases r with
  | ok u =>
    obtain ⟨hF, hsome⟩ := hr.mp rfl
    rw [hok, wp_bind]
    refine inc_by_faulty .evictions 1 fun w3 ht3 hm3 => ?_
    rw [wp_bind]
    refine inc_by_faulty .evicted_bytes len fun w4 ht4 hm4 => ?_
    rw [wp_bind]
    refine size_bytes_sub_faulty len fun w5 ht5 hm5 => ?_
    rw [wp_bind]
    have ht : w5.tree = w2.tree := ht5.trans (ht4.trans ht3)
    have hf5 : files_of cache w5 hash =
        { f with body := if F.body = none then none else f.body } := by
      rw [← hf2]
      unfold files_of
      rw [ht]
    refine purge_rest_faulty (ht ▸ hw2) hf5 fun w6 hw6 hm6 hf6 => ?_
    refine ⟨true, rfl, iff_of_true rfl ⟨hsome, hF⟩, hw6, hf6, ?_⟩
    rw [hm6, hm5, hm4, hm3, hm2, paid_of_removed hF, ← hlen]
  | error x =>
    have hnot : ¬ F.Removes f := by
      rintro ⟨hsome, hF⟩
      cases hr.mpr ⟨hF, hsome⟩
    rw [herr, wp_bind]
    refine purge_rest_faulty hw2 hf2 fun w6 hw6 hm6 hf6 => ?_
    refine ⟨false, rfl, iff_of_false (by simp) hnot, hw6, hf6, ?_⟩
    rw [hm6, hm2, paid_of_kept hnot]
    simp

/-- A purge returns whether it removed the body, and takes off the length that it read. -/
theorem purge_faulty (key : K) (purge_type : PurgeType) (hw : cache.Laid w.tree) :
    wp (faulty F) (fun _ => True) (cache.purge key purge_type) (fun r w' =>
      ∃ b, r = .ok b ∧ (b = true ↔ F.Removes (files_of cache w (CacheHashKey.combined key))) ∧
        cache.Laid w'.tree ∧ files_of cache w' (CacheHashKey.combined key) =
          F.left (files_of cache w (CacheHashKey.combined key)) ∧
        w'.metrics.size_bytes = w.metrics.size_bytes -
          F.paid (files_of cache w (CacheHashKey.combined key))) w := by
  generalize hhash : CacheHashKey.combined key = hash
  unfold DiskCache.purge
  simp only [DiskCache.path_from_key, DiskCache.path_from_hash, hhash]
  rw [wp_bind]
  refine inc_by_faulty .purge_attempts 1 fun w1 ht1 hm1 => ?_
  have hw1 : cache.Laid w1.tree := ht1 ▸ hw
  have hf1 : files_of cache w1 hash = files_of cache w hash := by
    unfold files_of
    rw [ht1]
  generalize files_of cache w hash = f at hf1 ⊢
  rw [← hm1, wp_bind]
  refine metadata_faulty hw1 hf1 (fun len hlen => ?_) fun e hlen => ?_
  · exact purge_measured_faulty hw1 hf1 hlen rfl fun _ => rfl
  · exact purge_measured_faulty hw1 hf1 hlen rfl fun _ => rfl

/-! ## When a purge tells the truth -/

/-- All three files are there, so that a lookup has something to decode. -/
def Complete (f : Files) : Prop :=
  f.body.isSome = true ∧ f.cache_meta.isSome = true ∧ f.hdr.isSome = true

instance (f : Files) : Decidable (Complete f) := inferInstanceAs (Decidable (_ ∧ _ ∧ _))

theorem decoded_eq_none_iff {M : Type} [CacheMeta M] (f : Files) :
    f.decoded M = .ok none ↔ ¬ Complete f := by
  obtain ⟨b, m, h⟩ := f
  unfold Complete
  cases b with
  | none => simp [Files.decoded]
  | some b =>
    cases m with
    | none => simp [Files.decoded]
    | some m =>
      cases h with
      | none => simp [Files.decoded]
      | some h =>
        simp only [Files.decoded, Option.isSome_some, and_self, not_true_eq_false, iff_false]
        cases CacheMeta.deserialize (M := M) m h <;> simp [Except.map]

/-- The key is served no more exactly when not all three files are there. -/
theorem looks_none_iff {M : Type} [CacheMeta M] (hw : cache.Laid w.tree) (key : K) :
    (∀ x : Result (Option (M × Bytes)), Looks cache key w x ↔ x = .ok none) ↔
      ¬ Complete (files_of cache w (CacheHashKey.combined key)) := by
  rw [looks_only_iff hw, decoded_eq_none_iff]

/-- After a purge with these failures the key is not served, what the purge returned is whether
the body was there and is gone, and the gauge has lost the length of a body that is gone. -/
def TellsTruth (M : Type) [CacheMeta M] (cache : DiskCache) (key : K) (purge_type : PurgeType)
    (F : Failures) (w : World) : Prop :=
  ∀ cs b w', run (faulty F) (cache.purge key purge_type) cs w = some (.ok b, w') →
    let before := files_of cache w (CacheHashKey.combined key)
    let after := files_of cache w' (CacheHashKey.combined key)
    (∀ x : Result (Option (M × Bytes)), Looks cache key w' x ↔ x = .ok none) ∧
    (b = true ↔ before.body.isSome = true ∧ after.body = none) ∧
    w'.metrics.size_bytes = w.metrics.size_bytes -
      if after.body = none then (before.body_len : Int) else 0

/-- The object stands, and the removals of all its three files fail. -/
def Failures.Spares (F : Failures) (f : Files) : Prop :=
  Complete f ∧ F.body ≠ none ∧ F.cache_meta ≠ none ∧ F.hdr ≠ none

/-- A body that is not empty goes, after its length could not be read. -/
def Failures.Uncounted (F : Failures) (f : Files) : Prop :=
  F.metadata ≠ none ∧ F.body = none ∧ 0 < f.body_len

theorem complete_left_iff (F : Failures) (f : Files) : Complete (F.left f) ↔ F.Spares f := by
  unfold Complete Failures.left Failures.Spares Complete
  by_cases hb : F.body = none <;> by_cases hm : F.cache_meta = none <;>
    by_cases hh : F.hdr = none <;> simp [hb, hm, hh]

/-- What the gauge loses is the length of the body that goes, unless that was not counted. -/
theorem paid_eq_iff (F : Failures) (f : Files) :
    (F.paid f : Int) = (if (F.left f).body = none then (f.body_len : Int) else 0) ↔
      ¬ F.Uncounted f := by
  unfold Failures.paid Failures.left Failures.Uncounted
  by_cases hb : F.body = none
  · by_cases hm : F.metadata = none
    · simp [hb, hm]
    · simp [hb, hm]
      omega
  · have hlen : f.body = none → f.body_len = 0 := fun h => by simp [Files.body_len, h]
    simp only [hb, false_and, if_false, and_false, not_false_eq_true, iff_true]
    by_cases hf : f.body = none
    · simp [hf, hlen hf]
    · simp [hf]

/-- What is known after each run of a purge. -/
theorem purge_run {key : K} {purge_type : PurgeType} {cs : List Choice} {b : Bool} {w' : World}
    (hw : cache.Laid w.tree)
    (hrun : run (faulty F) (cache.purge key purge_type) cs w = some (.ok b, w')) :
    let before := files_of cache w (CacheHashKey.combined key)
    (b = true ↔ F.Removes before) ∧ cache.Laid w'.tree ∧
      files_of cache w' (CacheHashKey.combined key) = F.left before ∧
      w'.metrics.size_bytes = w.metrics.size_bytes - F.paid before := by
  obtain ⟨b', hb, h⟩ := run_sound hrun (fun _ _ => trivial) (purge_faulty key purge_type hw)
  cases hb
  exact h

/-- Whichever of its calls fail, a purge tells the truth exactly when it does not leave the whole
object behind, and does not remove a body, but an empty one, of which it could not read the
length. -/
theorem a_purge_tells_the_truth_unless_it_spares_the_object_or_cannot_measure_it
    {M : Type} [CacheMeta M] (cache : DiskCache) (key : K) (purge_type : PurgeType) (F : Failures)
    (w : World) (hw : cache.Laid w.tree) :
    TellsTruth M cache key purge_type F w ↔
      ¬ F.Spares (files_of cache w (CacheHashKey.combined key)) ∧
      ¬ F.Uncounted (files_of cache w (CacheHashKey.combined key)) := by
  rw [← complete_left_iff, ← paid_eq_iff]
  constructor
  · intro h
    have hend : ∃ cs r w', (∀ c ∈ cs, True) ∧
        run (faulty F) (cache.purge key purge_type) cs w = some (r, w') :=
      run_exists _ w plain trivial
    obtain ⟨cs, r, w', _, hrun⟩ := hend
    obtain ⟨b, rfl, _⟩ := run_sound hrun (fun _ _ => trivial) (purge_faulty key purge_type hw)
    obtain ⟨_, hlaid, hfiles, hgauge⟩ := purge_run hw hrun
    obtain ⟨hlooks, _, hsize⟩ := h cs b w' hrun
    rw [looks_none_iff hlaid, hfiles] at hlooks
    refine ⟨hlooks, ?_⟩
    rw [hfiles] at hsize
    omega
  · rintro ⟨hlooks, hpaid⟩ cs b w' hrun
    obtain ⟨hb, hlaid, hfiles, hgauge⟩ := purge_run hw hrun
    simp only
    rw [looks_none_iff hlaid, hfiles]
    refine ⟨hlooks, ?_, ?_⟩
    · rw [hb]
      unfold Failures.Removes Failures.left
      refine and_congr_right fun hsome => ?_
      by_cases hF : F.body = none
      · simp [hF]
      · simp only [hF, if_neg, not_false_eq_true, false_iff]
        exact Option.isSome_iff_ne_none.mp hsome
    · rw [hgauge, hpaid]

end

/-! ## A purge that removes nothing -/

/-- The removals of the three files fail, and nothing else. -/
def no_removal : Failures := ⟨none, some ioFault, some ioFault, some ioFault, none⟩

/-- The removal of the metadata fails, and nothing else. -/
def no_removal_of_meta : Failures := ⟨none, none, some ioFault, none, none⟩

theorem a_purge_that_keeps_the_metadata_tells_the_truth :
    TellsTruth Note small_cache small_hash .Eviction no_removal_of_meta rewriting.2 := by
  refine (a_purge_tells_the_truth_unless_it_spares_the_object_or_cannot_measure_it small_cache
    small_hash .Eviction no_removal_of_meta rewriting.2 rewriting_laid).mpr ⟨?_, ?_⟩
  · exact fun h => h.2.1 rfl
  · exact fun h => h.1 rfl

/-- It returns false, and a lookup serves the object as before. -/
theorem a_purge_that_removes_nothing_does_not_tell_the_truth :
    Complete (files_of small_cache rewriting.2 small_hash) ∧
    ¬ TellsTruth Note small_cache small_hash .Eviction no_removal rewriting.2 := by
  have hbefore : Complete (files_of small_cache rewriting.2 small_hash) := by decide +kernel
  refine ⟨hbefore, fun h => ?_⟩
  have hrun : ((run (faulty no_removal) (small_cache.purge small_hash .Eviction)
      (List.replicate 6 plain) rewriting.2).map fun x => x.1.toOption) = some (some false) := by
    decide +kernel
  obtain ⟨⟨r, w'⟩, hrun, hr⟩ := Option.map_eq_some_iff.mp hrun
  cases r with
  | error e => cases hr
  | ok b =>
    obtain ⟨_, hlaid, hfiles, _⟩ := purge_run rewriting_laid hrun
    have hlooks := (h _ b w' hrun).1
    rw [looks_none_iff hlaid, hfiles, complete_left_iff] at hlooks
    exact hlooks ⟨hbefore, by simp [no_removal], by simp [no_removal], by simp [no_removal]⟩

end edge_cdn_store.purge_faults
