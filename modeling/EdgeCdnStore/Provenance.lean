-- Where the objects of a run come from. A run keeps a log of its operations, each
-- with what it was for. From the log one can tell which handler wrote a body, and
-- which operation brought the metadata that stands beside it.
import EdgeCdnStore.Refinement

open edge_cdn_store.io edge_cdn_store.logger edge_cdn_store.disk_cache edge_cdn_store.tiered
open edge_cdn_store.operations edge_cdn_store.refinement

namespace edge_cdn_store.provenance

/-! ## The log -/

/-- An operation with its reply, and with what it was for. -/
structure Entry (T K M : Type) where
  cause : T
  op : Op K M
  reply : operations.Reply M

variable {T K M : Type} [CacheHashKey K] [CacheMeta M]

namespace Entry

/-- What the operation writes to handler `h`. -/
def chunk (h : Nat) (e : Entry T K M) : Bytes :=
  match e.op with
  | .write_body i data _ => if i = h then data else []
  | _ => []

/-- Handler `h` was given for the key, with the metadata. -/
def Admits (e : Entry T K M) (hash : CombinedHash) (cache_meta : M) (h : Nat) : Prop :=
  ∃ key, CacheHashKey.combined key = hash ∧ e.op = .get_miss_handler key cache_meta ∧
    e.reply = .handler (.ok h)

/-- The operation brought the metadata to the key. -/
def Updates (e : Entry T K M) (hash : CombinedHash) (cache_meta : M) : Prop :=
  ∃ key, CacheHashKey.combined key = hash ∧ e.op = .update_meta key cache_meta

end Entry

/-- All that was written to handler `h`. -/
def written (log : List (Entry T K M)) (h : Nat) : Bytes := log.flatMap (Entry.chunk h)

/-- An object was there at the start, or it is all that was written to one handler which was
given for the key with the metadata and has finished, or it has got new metadata since. -/
inductive ObjectFrom (start : MapState M) (log : List (Entry T K M)) (hash : CombinedHash) :
    Object M → Prop
  | start (o : Object M) (ho : start.objects hash = some o) : ObjectFrom start log hash o
  | finished (h : Nat) (cache_meta : M) (a f : Entry T K M) (ha : a ∈ log)
      (hadmits : a.Admits hash cache_meta h) (hf : f ∈ log) (hfinish : f.op = .finish h) :
      ObjectFrom start log hash ⟨.ok cache_meta, written log h⟩
  | updated (o : Object M) (cache_meta : M) (e : Entry T K M) (h : ObjectFrom start log hash o)
      (he : e ∈ log) (hu : e.Updates hash cache_meta) :
      ObjectFrom start log hash ⟨.ok cache_meta, o.body⟩

/-- The map after a run is what the log says. -/
structure Traced (start : MapState M) (log : List (Entry T K M)) (a : MapState M) : Prop where
  unwritten : ∀ h, a.next_miss ≤ h → written log h = []
  misses : ∀ h m, a.misses h = some m → h < a.next_miss ∧ m.chunks.flatten = written log h ∧
    ∃ e ∈ log, e.Admits m.hash m.cache_meta h
  finished : ∀ e ∈ log, ∀ h, e.op = .finish h → a.misses h = none ∧ h < a.next_miss
  objects : ∀ hash o, a.objects hash = some o → ObjectFrom start log hash o

variable {start a a' : MapState M} {log : List (Entry T K M)} {e : Entry T K M}
  {hash : CombinedHash} {d : Bytes} {o : Object M}

omit [CacheHashKey K] [CacheMeta M] in
@[simp] theorem written_append (log : List (Entry T K M)) (e : Entry T K M) (h : Nat) :
    written (log ++ [e]) h = written log h ++ e.chunk h := by
  simp [written]

omit [CacheMeta M] in
theorem traced_start (h : ∀ i, start.misses i = none) :
    Traced start ([] : List (Entry T K M)) start where
  unwritten _ _ := rfl
  misses i m hm := by
    rw [h i] at hm
    cases hm
  finished e he := by cases he
  objects hash o ho := .start o ho

/-! ## One operation -/

/-- A handler that is not there is not written to. -/
theorem chunk_of_no_miss {h : Nat} (hexec : a.exec e.op = some (e.reply, a'))
    (hnone : a.misses h = none) : e.chunk h = [] := by
  unfold Entry.chunk
  split
  · rename_i i data is_eof hop
    rw [if_neg]
    rintro rfl
    rw [hop] at hexec
    simp [MapState.exec, hnone] at hexec
  · rfl

theorem ObjectFrom.snoc (hT : Traced start log a) (hexec : a.exec e.op = some (e.reply, a'))
    (h : ObjectFrom start log hash o) : ObjectFrom start (log ++ [e]) hash o := by
  induction h with
  | start o ho => exact .start o ho
  | finished i m x f hx hadmits hf hfinish =>
    have hchunk := chunk_of_no_miss hexec (hT.finished f hf i hfinish).1
    have hsame : written (log ++ [e]) i = written log i := by
      rw [written_append, hchunk, List.append_nil]
    rw [← hsame]
    exact .finished i m x f (List.mem_append_left _ hx) hadmits (List.mem_append_left _ hf) hfinish
  | updated o m x _ hx hu ih => exact .updated o m x ih (List.mem_append_left _ hx) hu

omit [CacheMeta M] in
/-- An operation that writes nothing and finishes nothing, and leaves the handlers alone. -/
theorem Traced.same (hT : Traced start log a)
    (hchunk : ∀ h, e.chunk h = []) (hfinish : ∀ h, e.op ≠ .finish h) (hm : a'.misses = a.misses)
    (hn : a'.next_miss = a.next_miss)
    (ho : ∀ hash o, a'.objects hash = some o → ObjectFrom start (log ++ [e]) hash o) :
    Traced start (log ++ [e]) a' where
  unwritten h hle := by
    rw [hn] at hle
    rw [written_append, hT.unwritten h hle, hchunk]
    rfl
  misses h m hmiss := by
    rw [hm] at hmiss
    obtain ⟨hlt, hflat, x, hx, hadmits⟩ := hT.misses h m hmiss
    refine ⟨hn ▸ hlt, ?_, x, List.mem_append_left _ hx, hadmits⟩
    rw [written_append, hchunk, List.append_nil]
    exact hflat
  finished x hx h hop := by
    rw [hm, hn]
    rcases List.mem_append.mp hx with hx | hx
    · exact hT.finished x hx h hop
    · rw [List.mem_singleton.mp hx] at hop
      exact absurd hop (hfinish h)
  objects := ho

/-- The objects of before are still what the log says. -/
theorem Traced.old (hT : Traced start log a) (hexec : a.exec e.op = some (e.reply, a'))
    (hash : CombinedHash) (o : Object M) (ho : a.objects hash = some o) :
    ObjectFrom start (log ++ [e]) hash o := (hT.objects hash o ho).snoc hT hexec

/-- A new handler has written nothing yet. -/
theorem Traced.admit {key : K} {cache_meta : M} {cause : T} (hT : Traced start log a)
    (hexec : a.exec (.get_miss_handler key cache_meta : Op K M) =
      some (.handler (.ok a.next_miss), a.addMiss ⟨CacheHashKey.combined key, cache_meta, []⟩)) :
    Traced start (log ++ [⟨cause, .get_miss_handler key cache_meta, .handler (.ok a.next_miss)⟩])
      (a.addMiss ⟨CacheHashKey.combined key, cache_meta, []⟩) := by
  have hwritten : ∀ h, written (log ++
      [⟨cause, .get_miss_handler key cache_meta, .handler (.ok a.next_miss)⟩]) h =
        written log h := by
    intro h
    simp [Entry.chunk]
  refine ⟨?_, ?_, ?_, ?_⟩
  · intro h hle
    unfold MapState.addMiss at hle
    rw [hwritten]
    apply hT.unwritten
    simp only at hle
    omega
  · intro h m hm
    unfold MapState.addMiss at hm ⊢
    simp only [Function.update_apply] at hm ⊢
    rw [hwritten]
    by_cases hh : h = a.next_miss
    · subst hh
      rw [if_pos rfl] at hm
      cases hm
      refine ⟨by omega, (hT.unwritten _ (Nat.le_refl _)).symm, _,
        List.mem_append_right _ (List.mem_singleton_self _), key, rfl, rfl, rfl⟩
    · rw [if_neg hh] at hm
      obtain ⟨hlt, hflat, x, hx, hadmits⟩ := hT.misses h m hm
      exact ⟨by omega, hflat, x, List.mem_append_left _ hx, hadmits⟩
  · intro x hx h hop
    unfold MapState.addMiss
    simp only [Function.update_apply]
    rcases List.mem_append.mp hx with hx | hx
    · obtain ⟨hnone, hlt⟩ := hT.finished x hx h hop
      rw [if_neg (by omega)]
      exact ⟨hnone, by omega⟩
    · rw [List.mem_singleton.mp hx] at hop
      cases hop
  · intro hash o ho
    exact hT.old (e := ⟨cause, _, _⟩) hexec hash o ho

/-- A chunk comes after what the handler has written. -/
theorem Traced.write {h : Nat} {data : Bytes} {is_eof : Bool} {m : Miss M} {cause : T}
    {reply : operations.Reply M} (hT : Traced start log a) (hm : a.misses h = some m)
    (hexec : a.exec (.write_body h data is_eof : Op K M) = some (reply, a'))
    (ha' : a' = a.setMiss h (some { m with chunks := m.chunks ++ [data] })) :
    Traced start (log ++ [⟨cause, .write_body h data is_eof, reply⟩]) a' := by
  subst ha'
  obtain ⟨hlt, hflat, x, hx, hadmits⟩ := hT.misses h m hm
  refine ⟨?_, ?_, ?_, ?_⟩
  · intro i hle
    have hne : h ≠ i := by
      unfold MapState.setMiss at hle
      simp only at hle
      omega
    rw [written_append, hT.unwritten i hle]
    simp [Entry.chunk, hne]
  · intro i m' hm'
    unfold MapState.setMiss at hm' ⊢
    simp only [Function.update_apply] at hm' ⊢
    by_cases hi : i = h
    · subst hi
      rw [if_pos rfl] at hm'
      cases hm'
      refine ⟨hlt, ?_, x, List.mem_append_left _ hx, hadmits⟩
      simp [Entry.chunk, hflat]
    · rw [if_neg hi] at hm'
      obtain ⟨hlt', hflat', y, hy, hadmits'⟩ := hT.misses i m' hm'
      refine ⟨hlt', ?_, y, List.mem_append_left _ hy, hadmits'⟩
      simp [Entry.chunk, hflat', Ne.symm hi]
  · intro y hy i hop
    unfold MapState.setMiss
    simp only [Function.update_apply]
    rcases List.mem_append.mp hy with hy | hy
    · obtain ⟨hnone, hlt'⟩ := hT.finished y hy i hop
      rw [if_neg]
      · exact ⟨hnone, hlt'⟩
      · rintro rfl
        rw [hm] at hnone
        cases hnone
    · rw [List.mem_singleton.mp hy] at hop
      cases hop
  · intro hash o ho
    exact hT.old (e := ⟨cause, _, _⟩) hexec hash o ho

omit [CacheMeta M] in
/-- A handler goes, by a finish or without one. -/
theorem Traced.release {h : Nat} {m : Miss M} (hT : Traced start log a)
    (hm : a.misses h = some m) (hchunk : ∀ h, e.chunk h = [])
    (hfinish : ∀ i, e.op = .finish i → i = h)
    (hmisses : a'.misses = Function.update a.misses h none) (hn : a'.next_miss = a.next_miss)
    (ho : ∀ hash o, a'.objects hash = some o → ObjectFrom start (log ++ [e]) hash o) :
    Traced start (log ++ [e]) a' where
  unwritten i hle := by
    rw [hn] at hle
    rw [written_append, hT.unwritten i hle, hchunk]
    rfl
  misses i m' hm' := by
    rw [hmisses, Function.update_apply] at hm'
    split at hm'
    · cases hm'
    · obtain ⟨hlt, hflat, x, hx, hadmits⟩ := hT.misses i m' hm'
      refine ⟨hn ▸ hlt, ?_, x, List.mem_append_left _ hx, hadmits⟩
      rw [written_append, hchunk, List.append_nil]
      exact hflat
  finished x hx i hop := by
    rw [hmisses, hn, Function.update_apply]
    split
    · rename_i hi
      rw [hi]
      exact ⟨rfl, (hT.misses h m hm).1⟩
    · rename_i hi
      rcases List.mem_append.mp hx with hx | hx
      · exact hT.finished x hx i hop
      · rw [List.mem_singleton.mp hx] at hop
        exact absurd (hfinish i hop) hi
  objects := ho

/-- After every operation the map is what the log says. -/
theorem Traced.step (hT : Traced start log a) (hexec : a.exec e.op = some (e.reply, a')) :
    Traced start (log ++ [e]) a' := by
  have hold := hT.old hexec
  obtain ⟨cause, op, reply⟩ := e
  cases op with
  | lookup key =>
    simp only [MapState.exec] at hexec
    refine hT.same (fun _ => rfl) (fun _ h => by cases h) ?_ ?_ ?_
    all_goals
      split at hexec
      all_goals
        cases hexec
        first | rfl | exact hold
  | get_miss_handler key cache_meta =>
    have hrun := hexec
    simp only [MapState.exec] at hexec
    split at hexec
    · cases hexec
      exact hT.same (fun _ => rfl) (fun _ h => by cases h) rfl rfl hold
    · cases hexec
      exact hT.admit hrun
  | write_body h data is_eof =>
    have hrun := hexec
    simp only [MapState.exec, Option.map_eq_some_iff, Prod.mk.injEq] at hexec
    obtain ⟨m, hm, _, rfl⟩ := hexec
    exact hT.write hm hrun rfl
  | finish h =>
    have hrun := hexec
    simp only [MapState.exec, Option.map_eq_some_iff, Prod.mk.injEq] at hexec
    obtain ⟨m, hm, _, rfl⟩ := hexec
    obtain ⟨_, hflat, x, hx, hadmits⟩ := hT.misses h m hm
    refine hT.release (e := ⟨cause, .finish h, reply⟩) hm (fun _ => rfl) ?_ rfl rfl ?_
    · intro i hi
      cases hi
      rfl
    · intro hash o ho
      simp only [MapState.setMiss, MapState.put, Function.update_apply] at ho
      split at ho
      · rename_i heq
        subst heq
        cases ho
        have hsame : m.chunks.flatten = written (log ++ [⟨cause, .finish h, reply⟩]) h := by
          simp [Entry.chunk, hflat]
        rw [hsame]
        exact .finished h m.cache_meta x _ (List.mem_append_left _ hx) hadmits
          (List.mem_append_right _ (List.mem_singleton_self _)) rfl
      · exact hold hash o ho
  | drop_handler h =>
    have hrun := hexec
    simp only [MapState.exec, Option.map_eq_some_iff, Prod.mk.injEq] at hexec
    obtain ⟨m, hm, _, rfl⟩ := hexec
    exact hT.release (e := ⟨cause, .drop_handler h, reply⟩) hm (fun _ => rfl)
      (fun i hi => by cases hi) rfl rfl hold
  | purge key purge_type =>
    simp only [MapState.exec, Option.some.injEq, Prod.mk.injEq] at hexec
    obtain ⟨_, rfl⟩ := hexec
    refine hT.same (fun _ => rfl) (fun _ h => by cases h) rfl rfl ?_
    intro hash o ho
    simp only [MapState.put, Function.update_apply] at ho
    split at ho
    · cases ho
    · exact hold hash o ho
  | update_meta key cache_meta =>
    simp only [MapState.exec] at hexec
    split at hexec
    · cases hexec
      exact hT.same (fun _ => rfl) (fun _ h => by cases h) rfl rfl hold
    · rename_i o hobj
      split at hexec
      · cases hexec
        exact hT.same (fun _ => rfl) (fun _ h => by cases h) rfl rfl hold
      · cases hexec
        refine hT.same (fun _ => rfl) (fun _ h => by cases h) rfl rfl ?_
        intro hash o' ho'
        simp only [MapState.put, Function.update_apply] at ho'
        split at ho'
        · rename_i heq
          subst heq
          cases ho'
          exact .updated o cache_meta _ (hold _ o hobj)
            (List.mem_append_right _ (List.mem_singleton_self _)) ⟨key, rfl, rfl⟩
        · exact hold hash o' ho'
  | read_to_end h =>
    simp only [MapState.exec, Option.map_eq_some_iff, Prod.mk.injEq] at hexec
    obtain ⟨rest, _, _, rfl⟩ := hexec
    exact hT.same (fun _ => rfl) (fun _ h => by cases h) rfl rfl hold

/-! ## Whole runs -/

/-- Any number of whole operations on the deployed storage, of which no call fails. Each was
made for a cause that `Allows` gives, and handlers that are alive at the same time have
temporary files of their own. -/
inductive Logged (cache : DiskCache) (Allows : T → Op K M → Prop) :
    Handlers × World → List (Entry T K M) → Handlers × World → Prop
  | nil (c : Handlers × World) : Logged cache Allows c [] c
  | snoc {c c' c'' : Handlers × World} {log : List (Entry T K M)} {e : Entry T K M} :
      Logged cache Allows c log c' → Allows e.cause e.op →
      Step (tiered_cache cache).storage c' e.op e.reply c'' → c''.1.Distinct →
      Logged cache Allows c (log ++ [e]) c''

variable {cache : DiskCache} {Allows : T → Op K M → Prop} {c c' : Handlers × World} {w : World}

theorem Logged.allows (h : Logged cache Allows c log c') : ∀ e ∈ log, Allows e.cause e.op := by
  induction h with
  | nil => simp
  | snoc _ hallows _ _ ih =>
    intro e he
    rcases List.mem_append.mp he with he | he
    · exact ih e he
    · rw [List.mem_singleton.mp he]
      exact hallows

/-- The last operation of a run. -/
theorem Logged.last (h : Logged cache Allows c (log ++ [e]) c') :
    ∃ c1, Logged cache Allows c log c1 ∧ Step (tiered_cache cache).storage c1 e.op e.reply c' ∧
      c'.1.Distinct := by
  generalize hl : log ++ [e] = log' at h
  cases h with
  | nil => simp at hl
  | snoc hrun _ hstep hdist =>
    obtain ⟨rfl, hx⟩ := List.append_inj' hl rfl
    cases hx
    exact ⟨_, hrun, hstep, hdist⟩

/-- What stands after a run: the map on the disk is what the log says. -/
structure Stands (cache : DiskCache) (start : MapState M) (log : List (Entry T K M))
    (c : Handlers × World) (a : MapState M) : Prop where
  sim : Sim cache c.1 c.2 a
  traced : Traced start log a
  distinct : c.1.Distinct

section
variable (codec : ∀ (m : M) mi mh, CacheMeta.serialize m = .ok (mi, mh) →
  CacheMeta.deserialize mi mh = .ok m)
include codec

theorem Stands.step (hs : Stands cache start log c a)
    (hstep : Step (tiered_cache cache).storage c e.op e.reply c') (hdist : c'.1.Distinct) :
    ∃ a', a.exec e.op = some (e.reply, a') ∧ Stands cache start (log ++ [e]) c' a' := by
  obtain ⟨a', hexec, hsim⟩ := step_sim codec hs.sim hs.distinct hstep hdist
  exact ⟨a', hexec, hsim, hs.traced.step hexec, hdist⟩

theorem Logged.stands (hw : cache.Laid w.tree) (hall : ∀ hash, AllOrNone cache w.tree.content hash)
    (h : Logged cache Allows (Handlers.empty, w) log c) :
    ∃ a, Stands cache (disk_map cache w) log c a := by
  induction h with
  | nil =>
    exact ⟨_, disk_map_sim hw hall, traced_start fun _ => rfl, fun _ _ _ _ hm => nomatch hm⟩
  | snoc _ _ hstep hdist ih =>
    obtain ⟨a, hs⟩ := ih
    obtain ⟨a', _, hs'⟩ := hs.step codec hstep hdist
    exact ⟨a', hs'⟩

end

/-! ## A hit, from its lookup to its last byte -/

/-- What a hit has still to give stays, until it is read. -/
theorem hits_kept {h : Nat} (hexec : a.exec e.op = some (e.reply, a'))
    (hread : e.op ≠ .read_to_end h) (hh : a.hits h = some d) (hlt : h < a.next_hit) :
    a'.hits h = some d ∧ h < a'.next_hit := by
  obtain ⟨cause, op, reply⟩ := e
  cases op with
  | lookup key =>
    simp only [MapState.exec] at hexec
    split at hexec
    · cases hexec
      exact ⟨hh, hlt⟩
    · cases hexec
      exact ⟨hh, hlt⟩
    · cases hexec
      unfold MapState.addHit
      simp only
      rw [Function.update_of_ne (by omega)]
      exact ⟨hh, by omega⟩
  | get_miss_handler key cache_meta =>
    simp only [MapState.exec] at hexec
    split at hexec <;> cases hexec <;> exact ⟨hh, hlt⟩
  | write_body i data is_eof =>
    simp only [MapState.exec, Option.map_eq_some_iff, Prod.mk.injEq] at hexec
    obtain ⟨m, _, _, rfl⟩ := hexec
    exact ⟨hh, hlt⟩
  | finish i =>
    simp only [MapState.exec, Option.map_eq_some_iff, Prod.mk.injEq] at hexec
    obtain ⟨m, _, _, rfl⟩ := hexec
    exact ⟨hh, hlt⟩
  | drop_handler i =>
    simp only [MapState.exec, Option.map_eq_some_iff, Prod.mk.injEq] at hexec
    obtain ⟨m, _, _, rfl⟩ := hexec
    exact ⟨hh, hlt⟩
  | purge key purge_type =>
    simp only [MapState.exec, Option.some.injEq, Prod.mk.injEq] at hexec
    obtain ⟨_, rfl⟩ := hexec
    exact ⟨hh, hlt⟩
  | update_meta key cache_meta =>
    simp only [MapState.exec] at hexec
    split at hexec
    · cases hexec
      exact ⟨hh, hlt⟩
    · split at hexec <;> cases hexec <;> exact ⟨hh, hlt⟩
  | read_to_end i =>
    simp only [MapState.exec, Option.map_eq_some_iff, Prod.mk.injEq] at hexec
    obtain ⟨rest, _, _, rfl⟩ := hexec
    have hne : h ≠ i := by
      rintro rfl
      exact hread rfl
    unfold MapState.setHit
    simp only
    rw [Function.update_of_ne hne]
    exact ⟨hh, hlt⟩

/-- A lookup that found an object has its metadata, and its body to give. -/
theorem found_of_exec {key : K} {m : M} {h : Nat}
    (hexec : a.exec (.lookup key : Op K M) = some (.found (.ok (some (m, h))), a')) :
    ∃ o, a.objects (CacheHashKey.combined key) = some o ∧ o.cache_meta = .ok m ∧
      a'.hits h = some o.body ∧ h < a'.next_hit := by
  simp only [MapState.exec] at hexec
  split at hexec
  · cases hexec
  · cases hexec
  · rename_i cache_meta body hobj
    cases hexec
    refine ⟨_, hobj, rfl, ?_, ?_⟩
    · simp [MapState.addHit]
    · unfold MapState.addHit
      simp

section
variable (codec : ∀ (m : M) mi mh, CacheMeta.serialize m = .ok (mi, mh) →
  CacheMeta.deserialize mi mh = .ok m)
include codec

/-- Between its lookup and its first read a hit keeps what it has to give. -/
theorem hits_kept_over {h : Nat} {between : List (Entry T K M)} (hs : Stands cache start log c a)
    (hrun : Logged cache Allows c between c') (hread : ∀ e ∈ between, e.op ≠ .read_to_end h)
    (hh : a.hits h = some d) (hlt : h < a.next_hit) :
    ∃ a', Stands cache start (log ++ between) c' a' ∧ a'.hits h = some d := by
  have hend : ∃ a', Stands cache start (log ++ between) c' a' ∧ a'.hits h = some d ∧
      h < a'.next_hit := by
    induction hrun with
    | nil => exact ⟨a, by rwa [List.append_nil], hh, hlt⟩
    | snoc _ _ hstep hdist ih =>
      obtain ⟨a1, hs1, hh1, hlt1⟩ := ih fun x hx => hread x (List.mem_append_left _ hx)
      obtain ⟨a2, hexec, hs2⟩ := hs1.step codec hstep hdist
      obtain ⟨hh2, hlt2⟩ := hits_kept hexec
        (hread _ (List.mem_append_right _ (List.mem_singleton_self _))) hh1 hlt1
      exact ⟨a2, by rwa [List.append_assoc] at hs2, hh2, hlt2⟩
  obtain ⟨a', hs', hh', _⟩ := hend
  exact ⟨a', hs', hh'⟩

end

end edge_cdn_store.provenance
