-- An update of the metadata whose writes fail. The metadata are in two files that
-- are rewritten in place, one after the other, and a write that fails may have
-- rewritten a part of its file. What the two files say together after a failure
-- decides whether the old object still stands.
import EdgeCdnStore.FinishFaults

open edge_cdn_store.programs edge_cdn_store.programs.Program edge_cdn_store.io
open edge_cdn_store.file_tree edge_cdn_store.file_tree.FileTree
open edge_cdn_store.logger edge_cdn_store.disk_cache edge_cdn_store.operations
open edge_cdn_store.finish_faults

namespace edge_cdn_store.update_faults

/-! ## The failures -/

/-- How the two writes fail: before they opened their file, or after some bytes of it. -/
structure Failures where
  write_meta : Option Fault
  write_hdr : Option Fault

def Failures.choice (F : Failures) (e : Io) (c : Choice) : Choice :=
  match e with
  | .write p _ =>
    { c with fault := if p.getLast? = some "meta".toList then F.write_meta else F.write_hdr }
  | _ => c.calm

/-- The operating system with these failures. -/
def faulty (F : Failures) : Environment Io Io.Reply Choice World :=
  fun e c w => answer e (F.choice e c) w

/-- What an update leaves in the two files, and whether both writes succeed. -/
def Failures.left (F : Failures) (old : Files) (mi mh : Bytes) : Files × Bool :=
  match F.write_meta with
  | some ⟨_, none⟩ => (old, false)
  | some ⟨_, some n⟩ => ({ old with cache_meta := some (mi.take n) }, false)
  | none =>
    match F.write_hdr with
    | some ⟨_, none⟩ => ({ old with cache_meta := some mi }, false)
    | some ⟨_, some n⟩ => ({ old with cache_meta := some mi, hdr := some (mh.take n) }, false)
    | none => ({ old with cache_meta := some mi, hdr := some mh }, true)

section
variable {K M : Type} [CacheHashKey K] [CacheMeta M]
variable {cache : DiskCache} {hash : CombinedHash} {C : Contents} {f : Files} {g : Int} {w : World}
  {F : Failures}

/-- The writes fail as those of a finish do. -/
theorem write_faulty {Q : Except IoError Unit → World → Prop} {n : List Char} {b d : Bytes}
    (s : Stands cache hash C f g w) (hb : f.body = some b) (fault : Option Fault)
    (hfault : fault = if n = "meta".toList then F.write_meta else F.write_hdr)
    (hsame : ∀ e, fault = some ⟨e, none⟩ → Q (.error e) w)
    (hput : ∀ d' w' r, ((∃ e k, fault = some ⟨e, some k⟩ ∧ d' = d.take k ∧ r = .error e) ∨
        (fault = none ∧ d' = d ∧ r = .ok ())) →
      cache.Laid w'.tree → w'.metrics = w.metrics →
      (∀ p, w'.tree.content p = if p = cache.entry hash n then some d' else w.tree.content p) →
      Q r w') :
    wp (faulty F) (fun _ => True) (fs.write (cache.entry hash n) d) Q w :=
  write_part_faulty (F := ⟨none, none, none, none, F.write_meta, F.write_hdr⟩) s hb fault hfault
    hsame hput

/-- An update of a key that has its body ends in an error exactly when a write fails, or when the
metadata do not serialize. -/
theorem update_meta_faulty {Q : Result Bool → World → Prop} {b : Bytes} (key : K) (cache_meta : M)
    (s : Stands cache (CacheHashKey.combined key) C f g w) (hb : f.body = some b)
    (hser : ∀ e, CacheMeta.serialize cache_meta = .error e → Q (.error e) w)
    (hwrites : ∀ mi mh, CacheMeta.serialize cache_meta = .ok (mi, mh) → ∀ r w',
      Stands cache (CacheHashKey.combined key) C (F.left f mi mh).1 g w' →
      ((∃ e, (F.left f mi mh).2 = false ∧ r = .error e) ∨
        ((F.left f mi mh).2 = true ∧ r = .ok true)) → Q r w') :
    wp (faulty F) (fun _ => True) (cache.update_meta key cache_meta) Q w := by
  unfold DiskCache.update_meta
  simp only [DiskCache.path_from_key, DiskCache.path_from_hash, trace_fn_exit_with_err, e_explain]
  rw [wp_bind]
  refine (wp_perform (Io.exists_path _) _ _).mpr fun c _ => ?_
  have hexists : faulty F (.exists_path (cache.body (CacheHashKey.combined key))) c w =
      (true, w) := by
    obtain ⟨i, hi⟩ := content_isSome.mp (by rw [s.body, hb]; rfl :
      (w.tree.content (cache.entry (CacheHashKey.combined key) "body".toList)).isSome)
    simp only [faulty, Failures.choice, answer, Choice.calm, DiskCache.body_eq, hi]
    rfl
  rw [hexists]
  simp only [if_true]
  cases hs : CacheMeta.serialize cache_meta with
  | error e => exact hser e hs
  | ok parts =>
    obtain ⟨mi, mh⟩ := parts
    have hleft := hwrites mi mh hs
    unfold Failures.left at hleft
    simp only
    rw [wp_bind]
    refine write_faulty s hb F.write_meta (if_pos rfl).symm (fun e hF => ?_)
      fun d1 w1 r hr hl hm hc => ?_
    · rw [hF] at hleft
      exact hleft _ w s (Or.inl ⟨_, rfl, rfl⟩)
    have s1 := s.putMeta hl hm hc
    rcases hr with ⟨e, n, hF, rfl, rfl⟩ | ⟨hF, rfl, rfl⟩
    · rw [hF] at hleft
      exact hleft _ w1 s1 (Or.inl ⟨_, rfl, rfl⟩)
    rw [hF] at hleft
    simp only
    rw [wp_bind]
    refine write_faulty s1 hb F.write_hdr (if_neg (by decide)).symm (fun e hF' => ?_)
      fun d2 w2 r hr hl hm hc => ?_
    · rw [hF'] at hleft
      exact hleft _ w1 s1 (Or.inl ⟨_, rfl, rfl⟩)
    have s2 := s1.putHdr hl hm hc
    rcases hr with ⟨e, n, hF', rfl, rfl⟩ | ⟨hF', rfl, rfl⟩
    · rw [hF'] at hleft
      exact hleft _ w2 s2 (Or.inl ⟨_, rfl, rfl⟩)
    · rw [hF'] at hleft
      exact hleft _ w2 s2 (Or.inr ⟨rfl, rfl⟩)

/-! ## When an update is atomic -/

/-- The failures leave two files that read as the old metadata: no write fails, or the first does
before it opened its file, or what was written by then and what was there reads so by chance. -/
def Failures.Spares (F : Failures) (old_meta : M) (old_hdr mi mh : Bytes) : Prop :=
  match F.write_meta with
  | some ⟨_, none⟩ => True
  | some ⟨_, some n⟩ => CacheMeta.deserialize (mi.take n) old_hdr = .ok old_meta
  | none =>
    match F.write_hdr with
    | some ⟨_, none⟩ => CacheMeta.deserialize mi old_hdr = .ok old_meta
    | some ⟨_, some n⟩ => CacheMeta.deserialize mi (mh.take n) = .ok old_meta
    | none => True

/-- An update that ends in an error leaves the old metadata with the old body, and one that
returns true leaves the new metadata with the same body. -/
def Atomic (cache : DiskCache) (key : K) (cache_meta old_meta : M) (b : Bytes) (F : Failures)
    (w : World) : Prop :=
  ∀ cs r w', run (faulty F) (cache.update_meta key cache_meta) cs w = some (r, w') →
    ((∃ e, r = .error e) → ∀ x, Looks cache key w' x ↔ x = .ok (some (old_meta, b))) ∧
    (r = .ok true → ∀ x, Looks cache key w' x ↔ x = .ok (some (cache_meta, b)))

theorem decoded_eq_some_iff {b mi mh : Bytes} {cache_meta : M} :
    Files.decoded M ⟨some b, some mi, some mh⟩ = .ok (some (cache_meta, b)) ↔
      CacheMeta.deserialize mi mh = .ok cache_meta := by
  simp only [Files.decoded]
  cases CacheMeta.deserialize (M := M) mi mh <;> simp [Except.map]

/-- Where both writes succeed, both files are new. -/
theorem left_of_done {f : Files} {mi mh : Bytes} (h : (F.left f mi mh).2 = true) :
    (F.left f mi mh).1 = { f with cache_meta := some mi, hdr := some mh } := by
  unfold Failures.left at h ⊢
  rcases F with ⟨_ | ⟨e, _ | n⟩, _ | ⟨e', _ | n'⟩⟩ <;> simp at h ⊢

/-- What is left after an error reads as the old metadata exactly when the failures spare them. -/
theorem left_decoded_iff {b old_mi old_mh mi mh : Bytes} {old_meta : M}
    (hold : CacheMeta.deserialize old_mi old_mh = .ok old_meta) :
    ((F.left ⟨some b, some old_mi, some old_mh⟩ mi mh).2 = false →
      (F.left ⟨some b, some old_mi, some old_mh⟩ mi mh).1.decoded M =
        .ok (some (old_meta, b))) ↔ F.Spares old_meta old_mh mi mh := by
  unfold Failures.left Failures.Spares
  rcases F with ⟨_ | ⟨e, _ | n⟩, _ | ⟨e', _ | n'⟩⟩ <;>
    simp [decoded_eq_some_iff, hold]

/-- What a stored object has on disk. -/
theorem files_of_stored {b : Bytes} {old_meta : M} (hw : cache.Laid w.tree) (key : K)
    (hstored : Looks cache key w (.ok (some (old_meta, b)))) :
    ∃ old_mi old_mh,
      files_of cache w (CacheHashKey.combined key) = ⟨some b, some old_mi, some old_mh⟩ ∧
      CacheMeta.deserialize old_mi old_mh = .ok old_meta := by
  rw [looks_iff hw] at hstored
  generalize files_of cache w (CacheHashKey.combined key) = f at hstored ⊢
  obtain ⟨body, m, h⟩ := f
  cases body with
  | none => cases hstored
  | some b' =>
    cases m with
    | none => cases hstored
    | some mi =>
      cases h with
      | none => cases hstored
      | some mh =>
        simp only [Files.decoded] at hstored
        cases hd : CacheMeta.deserialize (M := M) mi mh with
        | error e =>
          rw [hd] at hstored
          cases hstored
        | ok x =>
          rw [hd] at hstored
          cases hstored
          exact ⟨mi, mh, rfl, hd⟩

/-- What is known after each run of an update whose metadata serialize. -/
theorem update_run {key : K} {cache_meta : M} {b mi mh : Bytes} {cs : List Choice}
    {r : Result Bool} {w' : World} (hw : cache.Laid w.tree)
    (hfiles : files_of cache w (CacheHashKey.combined key) = f) (hb : f.body = some b)
    (hser : CacheMeta.serialize cache_meta = .ok (mi, mh))
    (hrun : run (faulty F) (cache.update_meta key cache_meta) cs w = some (r, w')) :
    cache.Laid w'.tree ∧ files_of cache w' (CacheHashKey.combined key) = (F.left f mi mh).1 ∧
      ((∃ e, (F.left f mi mh).2 = false ∧ r = .error e) ∨
        ((F.left f mi mh).2 = true ∧ r = .ok true)) := by
  have hs := stands_of hw (CacheHashKey.combined key)
  rw [hfiles] at hs
  refine run_sound (Q := fun r w' => cache.Laid w'.tree ∧
    files_of cache w' (CacheHashKey.combined key) = (F.left f mi mh).1 ∧
      ((∃ e, (F.left f mi mh).2 = false ∧ r = .error e) ∨
        ((F.left f mi mh).2 = true ∧ r = .ok true))) hrun (fun _ _ => trivial)
    (update_meta_faulty key cache_meta hs hb (fun e he => ?_) fun mi' mh' hser' r w' s hr => ?_)
  · rw [hser] at he
    cases he
  · rw [hser] at hser'
    cases hser'
    exact ⟨s.laid, s.files, hr⟩

/-- An update whose metadata do not serialize changes nothing. -/
theorem refused_run {key : K} {cache_meta : M} {b : Bytes} {e : Error} {cs : List Choice}
    {r : Result Bool} {w' : World} (hw : cache.Laid w.tree)
    (hfiles : files_of cache w (CacheHashKey.combined key) = f) (hb : f.body = some b)
    (hser : CacheMeta.serialize cache_meta = .error e)
    (hrun : run (faulty F) (cache.update_meta key cache_meta) cs w = some (r, w')) :
    r = .error e ∧ w' = w := by
  have hs := stands_of hw (CacheHashKey.combined key)
  rw [hfiles] at hs
  refine run_sound (Q := fun r w' => r = .error e ∧ w' = w) hrun (fun _ _ => trivial)
    (update_meta_faulty key cache_meta hs hb (fun e' he => ?_) fun mi mh hser' => ?_)
  · rw [hser] at he
    cases he
    exact ⟨rfl, rfl⟩
  · rw [hser] at hser'
    cases hser'

/-- Whichever of its writes fail and however far they come, an update of a stored object is atomic
exactly when the failures spare the old metadata. -/
theorem an_update_is_atomic_exactly_when_its_failures_spare_the_old_metadata
    (cache : DiskCache) (key : K) (cache_meta old_meta : M) (b : Bytes) (F : Failures) (w : World)
    (hw : cache.Laid w.tree) (hstored : Looks cache key w (.ok (some (old_meta, b))))
    (hcodec : ∀ mi mh, CacheMeta.serialize cache_meta = .ok (mi, mh) →
      CacheMeta.deserialize mi mh = .ok cache_meta) :
    Atomic cache key cache_meta old_meta b F w ↔
      ∀ mi mh old_hdr, CacheMeta.serialize cache_meta = .ok (mi, mh) →
        w.tree.content (cache.hdr (CacheHashKey.combined key)) = some old_hdr →
        F.Spares old_meta old_hdr mi mh := by
  obtain ⟨old_mi, old_mh, hfiles, hold⟩ := files_of_stored hw key hstored
  have hhdr : w.tree.content (cache.hdr (CacheHashKey.combined key)) = some old_mh :=
    congrArg Files.hdr hfiles
  constructor
  · intro h mi mh old_hdr hser hsome
    obtain rfl : old_mh = old_hdr := Option.some.inj (hhdr.symm.trans hsome)
    rw [← left_decoded_iff hold (b := b)]
    intro hfails
    have hend : ∃ cs r w', (∀ c ∈ cs, True) ∧
        run (faulty F) (cache.update_meta key cache_meta) cs w = some (r, w') :=
      run_exists _ w plain trivial
    obtain ⟨cs, r, w', _, hrun⟩ := hend
    obtain ⟨hlaid, hleft, hr⟩ := update_run hw hfiles rfl hser hrun
    rcases hr with ⟨e, _, hr⟩ | ⟨hdone, _⟩
    · have hlooks := (h cs r w' hrun).1 ⟨e, hr⟩
      rwa [looks_only_iff hlaid, hleft] at hlooks
    · rw [hfails] at hdone
      cases hdone
  · intro h cs r w' hrun
    cases hser : CacheMeta.serialize cache_meta with
    | error e =>
      obtain ⟨rfl, rfl⟩ := refused_run hw hfiles rfl hser hrun
      refine ⟨fun _ => ?_, fun hr => absurd hr (by simp)⟩
      rw [looks_only_iff hw, hfiles, decoded_eq_some_iff]
      exact hold
    | ok parts =>
      obtain ⟨mi, mh⟩ := parts
      have hspares := (left_decoded_iff hold (b := b)).mpr (h mi mh old_mh hser hhdr)
      obtain ⟨hlaid, hleft, hr⟩ := update_run hw hfiles rfl hser hrun
      rw [looks_only_iff hlaid, looks_only_iff hlaid, hleft]
      rcases hr with ⟨e, hfails, rfl⟩ | ⟨hdone, rfl⟩
      · exact ⟨fun _ => hspares hfails, fun hr => absurd hr (by simp)⟩
      · refine ⟨fun hr => absurd hr (by simp), fun _ => ?_⟩
        rw [left_of_done hdone, decoded_eq_some_iff]
        exact hcodec mi mh hser

end

/-! ## An update that fails in the middle -/

/-- The first write fails before it opens its file. -/
def no_meta_write : Failures := ⟨some ⟨ioFault, none⟩, none⟩

/-- The second write fails before it opens its file. -/
def no_hdr_write : Failures := ⟨none, some ⟨ioFault, none⟩⟩

theorem rewriting_stored :
    Looks small_cache small_hash rewriting.2 (.ok (some (Note.mk [7], [1, 2]))) := by
  rw [looks_iff rewriting_laid]
  decide +kernel

theorem an_update_that_fails_at_once_is_atomic :
    Atomic small_cache small_hash (Note.mk [9]) (Note.mk [7]) [1, 2] no_meta_write rewriting.2 :=
  (an_update_is_atomic_exactly_when_its_failures_spare_the_old_metadata small_cache small_hash
    (Note.mk [9]) (Note.mk [7]) [1, 2] no_meta_write rewriting.2 rewriting_laid rewriting_stored
    (note_codec _)).mpr fun _ _ _ _ _ => trivial

/-- It returns an error, and a lookup finds the new metadata. -/
theorem an_update_that_fails_in_the_middle_is_not_atomic :
    Looks small_cache small_hash rewriting.2 (.ok (some (Note.mk [7], [1, 2]))) ∧
    ¬ Atomic small_cache small_hash (Note.mk [9]) (Note.mk [7]) [1, 2] no_hdr_write
      rewriting.2 := by
  refine ⟨rewriting_stored, fun h => ?_⟩
  have hrun : ((run (faulty no_hdr_write) (small_cache.update_meta small_hash (Note.mk [9]))
      (List.replicate 3 plain) rewriting.2).map fun x => x.1.toOption) = some none := by
    decide +kernel
  obtain ⟨⟨r, w'⟩, hrun, hr⟩ := Option.map_eq_some_iff.mp hrun
  cases r with
  | ok k => cases hr
  | error e =>
    obtain ⟨_, _, hfiles, _⟩ := files_of_stored rewriting_laid small_hash rewriting_stored
    obtain ⟨hlaid, hleft, _⟩ := update_run rewriting_laid hfiles rfl rfl hrun
    have hlooks := (h _ _ w' hrun).1 ⟨e, rfl⟩
    rw [looks_only_iff hlaid, hleft] at hlooks
    simp [no_hdr_write, Failures.left, Files.decoded, CacheMeta.deserialize, Except.map] at hlooks

end edge_cdn_store.update_faults
