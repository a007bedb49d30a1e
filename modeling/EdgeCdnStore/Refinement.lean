-- What the deployed storage is for: a map from keys to objects. A run of whole
-- operations on the disk, with any number of handlers at work, returns what the
-- map returns.
import EdgeCdnStore.DiskSpecs
import EdgeCdnStore.Operations

open edge_cdn_store.programs edge_cdn_store.programs.Program edge_cdn_store.io
open edge_cdn_store.file_tree edge_cdn_store.file_tree.FileTree
open edge_cdn_store.logger edge_cdn_store.disk_cache edge_cdn_store.tiered
open edge_cdn_store.operations

namespace edge_cdn_store.refinement

/-! ## The map -/

/-- An object: its metadata, as far as it can be read, and its body. -/
structure Object (M : Type) where
  cache_meta : Result M
  body : Bytes

/-- A miss that is being written: its key, its metadata and its chunks so far. -/
structure Miss (M : Type) where
  hash : CombinedHash
  cache_meta : M
  chunks : List Bytes

/-- The map from keys to objects, with the misses that are being written, and with the bytes
that each hit has still to give. -/
structure MapState (M : Type) where
  objects : CombinedHash → Option (Object M)
  misses : Nat → Option (Miss M)
  next_miss : Nat
  hits : Nat → Option Bytes
  next_hit : Nat

variable {K M : Type} [CacheHashKey K] [CacheMeta M]

namespace MapState

def put (a : MapState M) (hash : CombinedHash) (o : Option (Object M)) : MapState M :=
  { a with objects := Function.update a.objects hash o }

def setMiss (a : MapState M) (h : Nat) (m : Option (Miss M)) : MapState M :=
  { a with misses := Function.update a.misses h m }

def addMiss (a : MapState M) (m : Miss M) : MapState M :=
  { a with misses := Function.update a.misses a.next_miss m, next_miss := a.next_miss + 1 }

def setHit (a : MapState M) (h : Nat) (d : Bytes) : MapState M :=
  { a with hits := Function.update a.hits h d }

def addHit (a : MapState M) (d : Bytes) : MapState M :=
  { a with hits := Function.update a.hits a.next_hit d, next_hit := a.next_hit + 1 }

/-- One operation on the map. The code of the metadata is asked only whether it can write
the metadata at all. -/
def exec (a : MapState M) : Op K M → Option (operations.Reply M × MapState M)
  | .lookup key =>
    match a.objects (CacheHashKey.combined key) with
    | none => some (.found (.ok none), a)
    | some ⟨.error e, _⟩ => some (.found (.error e), a)
    | some ⟨.ok cache_meta, body⟩ =>
      some (.found (.ok (some (cache_meta, a.next_hit))), a.addHit body)
  | .get_miss_handler key cache_meta =>
    match CacheMeta.serialize cache_meta with
    | .error e => some (.handler (.error e), a)
    | .ok _ =>
      some (.handler (.ok a.next_miss), a.addMiss ⟨CacheHashKey.combined key, cache_meta, []⟩)
  | .write_body h data _ => (a.misses h).map fun m =>
      (.written (.ok ()), a.setMiss h (some { m with chunks := m.chunks ++ [data] }))
  | .finish h => (a.misses h).map fun m =>
      (.finished (.ok (.Created m.chunks.flatten.length)),
        (a.put m.hash (some ⟨.ok m.cache_meta, m.chunks.flatten⟩)).setMiss h none)
  | .drop_handler h => (a.misses h).map fun _ => (.dropped, a.setMiss h none)
  | .purge key _ =>
      some (.existed (.ok (a.objects (CacheHashKey.combined key)).isSome),
        a.put (CacheHashKey.combined key) none)
  | .update_meta key cache_meta =>
    match a.objects (CacheHashKey.combined key) with
    | none => some (.existed (.ok false), a)
    | some o =>
      match CacheMeta.serialize cache_meta with
      | .error e => some (.existed (.error e), a)
      | .ok _ =>
        some (.existed (.ok true), a.put (CacheHashKey.combined key) (some ⟨.ok cache_meta, o.body⟩))
  | .read_to_end h => (a.hits h).map fun d => (.bytes (.ok d), a.setHit h [])

/-- A run of the map gives the replies of a trace. -/
inductive Gives : MapState M → List (Op K M × operations.Reply M) → MapState M → Prop
  | nil (a : MapState M) : Gives a [] a
  | snoc {a a' a'' : MapState M} {tr : List (Op K M × operations.Reply M)} {o : Op K M}
      {r : operations.Reply M} : Gives a tr a' → a'.exec o = some (r, a'') →
      Gives a (tr ++ [(o, r)]) a''

end MapState

/-! ## The disk as a map -/

variable {cache : DiskCache} {t : Handlers} {w : World} {a : MapState M}

/-- The three files of a key are what the map says: all of them stand there, or none. -/
def Holds (C : Contents) (cache : DiskCache) (hash : CombinedHash) : Option (Object M) → Prop
  | none => C (cache.entry hash "body".toList) = none ∧ C (cache.entry hash "meta".toList) = none ∧
      C (cache.entry hash "hdr".toList) = none
  | some o => C (cache.entry hash "body".toList) = some o.body ∧ ∃ mi mh,
      C (cache.entry hash "meta".toList) = some mi ∧ C (cache.entry hash "hdr".toList) = some mh ∧
      CacheMeta.deserialize mi mh = o.cache_meta

/-- A handler of a miss has its chunks in its temporary file. -/
structure Writes (C : Contents) (cache : DiskCache) (m : Miss M) (hd : DiskMissHandler) : Prop where
  paths : hd.Of cache m.hash
  content : C hd.tmp_path = some m.chunks.flatten
  counted : hd.tmp_bytes_written = m.chunks.flatten.length
  parts : CacheMeta.serialize m.cache_meta = .ok (hd.meta_internal, hd.meta_header)

/-- A handler of a hit has the rest of its body in its open file, where no later operation
writes. -/
structure Reads (w : World) (cache : DiskCache) (rest : Bytes) (hit : DiskHitHandler) : Prop where
  serves : ∃ d, hit.Serves w d ∧ hit.remaining d = rest
  file_lt : hit.file < w.opened
  ino_lt : (w.files hit.file).ino < w.tree.fresh
  sealed : w.tree.Only cache.bodies (w.files hit.file).ino
  enough : rest.length ≤ hit.total_len

/-- The two sides of a table agree. -/
inductive Agree {α β : Type} (R : α → β → Prop) : Option α → Option β → Prop
  | absent : Agree R none none
  | both {x : α} {y : β} : R x y → Agree R (some x) (some y)

/-- The disk and the handlers are what the map says. -/
structure Sim (cache : DiskCache) (t : Handlers) (w : World) (a : MapState M) : Prop where
  laid : cache.Laid w.tree
  objects : ∀ hash, Holds w.tree.content cache hash (a.objects hash)
  misses : ∀ h, Agree (Writes w.tree.content cache) (a.misses h) (t.misses h)
  next_miss : t.next_miss = a.next_miss
  hits : ∀ h, Agree (Reads w cache) (a.hits h) (t.hits h)
  next_hit : t.next_hit = a.next_hit
  own_files : ∀ h h' hit hit', t.hits h = some hit → t.hits h' = some hit' →
    hit.file = hit'.file → h = h'

/-! ## What the operations leave alone -/

section
variable {w0 w' : World} {C C' : Contents} {g : Int} {hash : CombinedHash}

theorem Agree.imp {α β : Type} {R R' : α → β → Prop} {x : Option α} {y : Option β}
    (h : Agree R x y) (hR : ∀ a b, x = some a → y = some b → R a b → R' a b) : Agree R' x y := by
  cases h with
  | absent => exact .absent
  | both h => exact .both (hR _ _ rfl rfl h)

/-- One place of two tables changes. -/
theorem agree_update {α β : Type} {R R' : α → β → Prop} {f : Nat → Option α} {f' : Nat → Option β}
    (h : ∀ i, Agree R (f i) (f' i)) (i : Nat) (x : Option α) (y : Option β) (hx : Agree R' x y)
    (hR : ∀ j a b, j ≠ i → f j = some a → f' j = some b → R a b → R' a b) (j : Nat) :
    Agree R' (Function.update f i x j) (Function.update f' i y j) := by
  by_cases hj : j = i
  · subst hj
    simpa using hx
  · rw [Function.update_of_ne hj, Function.update_of_ne hj]
    exact (h j).imp fun a b ha hb => hR j a b hj ha hb

theorem Agree.left_of_right {α β : Type} {R : α → β → Prop} {x : Option α} {b : β}
    (h : Agree R x (some b)) : ∃ a, x = some a ∧ R a b := by
  cases h with
  | both h => exact ⟨_, rfl, h⟩

theorem holds_update_tmp {n : List Char} {hash' : CombinedHash} {o : Option (Object M)}
    (hn : IsTmp n) (d : Option Bytes) (h : Holds C cache hash' o) :
    Holds (Function.update C (cache.entry hash n) d) cache hash' o := by
  have he : ∀ m : List Char, '-' ∉ m → Function.update C (cache.entry hash n) d
      (cache.entry hash' m) = C (cache.entry hash' m) :=
    fun m hm => Function.update_of_ne (Ne.symm (entry_ne_of_tmp cache hn hm)) _ _
  have hb := he "body".toList (by decide)
  have hm := he "meta".toList (by decide)
  have hh := he "hdr".toList (by decide)
  cases o with
  | none => simpa only [Holds, hb, hm, hh] using h
  | some o => simpa only [Holds, hb, hm, hh] using h

/-- New files of one key leave the other keys alone. -/
theorem holds_withFiles {f : CombinedHash → Option (Object M)} {o : Option (Object M)}
    (b m h : Option Bytes) (hf : ∀ hash', Holds C cache hash' (f hash'))
    (ho : Holds (withFiles cache hash C b m h) cache hash o) (hash' : CombinedHash) :
    Holds (withFiles cache hash C b m h) cache hash' (Function.update f hash o hash') := by
  by_cases he : hash' = hash
  · subst he
    rwa [Function.update_self]
  · rw [Function.update_of_ne he]
    have := hf hash'
    cases hfo : f hash' with
    | none => rw [hfo] at this; simpa only [Holds, withFiles_of_ne b m h he] using this
    | some o' => rw [hfo] at this; simpa only [Holds, withFiles_of_ne b m h he] using this

theorem Writes.of_content {m : Miss M} {hd : DiskMissHandler} (h : Writes C cache m hd)
    (hC : C' hd.tmp_path = C hd.tmp_path) : Writes C' cache m hd :=
  ⟨h.paths, by rw [hC]; exact h.content, h.counted, h.parts⟩

theorem Writes.withFiles {m : Miss M} {hd : DiskMissHandler} (h : Writes C cache m hd)
    (b mi mh : Option Bytes) : Writes (withFiles cache hash C b mi mh) cache m hd := by
  obtain ⟨n, hn, ht⟩ := h.paths.tmp_path
  exact h.of_content (by rw [ht]; exact withFiles_tmp b mi mh hn)

/-- A handler of a hit keeps what it has, whatever the operations do. -/
theorem Reads.leads {rest : Bytes} {hit : DiskHitHandler} (h : Reads w cache rest hit)
    (l : Leads cache w w' C' g) : Reads w' cache rest hit := by
  obtain ⟨d, hs, hrest⟩ := h.serves
  have hf := l.files hit.file h.file_lt
  refine ⟨⟨d, ⟨?_, ?_, hs.end_le, hs.chunk_pos⟩, hrest⟩, ?_, ?_, ?_, h.enough⟩
  · rw [hf, l.keeps.data _ h.ino_lt h.sealed]
    exact hs.data
  · rw [hf]
    exact hs.cursor
  · exact Nat.lt_of_lt_of_le h.file_lt l.opened_le
  · rw [hf]
    exact Nat.lt_of_lt_of_le h.ino_lt l.keeps.fresh_le
  · rw [hf]
    exact l.keeps.stays _ h.ino_lt h.sealed

/-- A new handler of a hit has its whole body to give. -/
theorem reads_of_fresh {d : Bytes} {hit : DiskHitHandler} (h : hit.Fresh cache hash w d) :
    Reads w cache d hit := by
  have hv := h.values
  refine ⟨⟨d, ⟨h.data, fun _ => ?_, ?_, ?_⟩, ?_⟩, h.file_lt, ?_, ?_, ?_⟩
  · rw [h.cursor, hv]
  · rw [hv]
  · rw [hv]
    simp [DEFAULT_READ_BUFFER_SIZE]
  · rw [hv]
    simp [DiskHitHandler.remaining]
  · exact w.tree.sound.below _ _ h.at_body
  · intro p hp
    rw [w.tree.sound.single _ _ _ hp h.at_body]
    exact DiskCache.body_mem_bodies
  · rw [hv]

theorem Reads.cursorOnly {rest : Bytes} {hit : DiskHitHandler} {f : Nat}
    (h : Reads w cache rest hit) (hc : CursorOnly f w w') (hf : hit.file ≠ f) :
    Reads w' cache rest hit := by
  obtain ⟨d, hs, hrest⟩ := h.serves
  have hfile := hc.files hit.file hf
  refine ⟨⟨d, ⟨?_, ?_, hs.end_le, hs.chunk_pos⟩, hrest⟩, ?_, ?_, ?_, h.enough⟩
  · rw [hfile, hc.tree]
    exact hs.data
  · rw [hfile]
    exact hs.cursor
  · rw [hc.opened]
    exact h.file_lt
  · rw [hfile, hc.tree]
    exact h.ino_lt
  · rw [hfile, hc.tree]
    exact h.sealed

/-- Reading to the end gives all that remains. -/
theorem read_to_end_spec {Q : Result Bytes × DiskHitHandler → World → Prop}
    {hit : DiskHitHandler} {d : Bytes} {f n : Nat} (hs : hit.Serves w d) (hf : hit.file = f)
    (hn : (hit.remaining d).length < n)
    (h : ∀ hit' w', hit'.Serves w' d → hit'.file = f → CursorOnly f w w' →
      hit'.remaining d = [] → Q (.ok (hit.remaining d), hit') w') :
    wp answer Calm (read_to_end n hit) Q w := by
  induction n generalizing w hit Q with
  | zero => omega
  | succ n ih =>
    simp only [read_to_end, wp_bind]
    refine read_body_spec hs hf ?_ ?_
    · intro hit' w1 hs' hf' hc hnil hnil'
      rw [hnil] at h
      exact h hit' w1 hs' hf' hc hnil'
    · intro b hit' w1 hs' hf' hc hb hsplit
      simp only [wp_bind]
      have hlen : 0 < b.length := List.length_pos_iff.mpr hb
      rw [hsplit, List.length_append] at hn
      refine ih hs' hf' (by omega) fun hit'' w2 hs'' hf'' hc' hnil => ?_
      rw [hsplit] at h
      exact h hit'' w2 hs'' hf'' (hc.trans hc') hnil

end

/-! ## Each operation does what the map does -/

section
variable {w' : World} {C' : Contents} {g : Int}

/-- The rest of the simulation after a stretch of calls that opens nothing for the caller. -/
theorem Sim.of_leads {t' : Handlers} {a' : MapState M} (s : Sim cache t w a)
    (l : Leads cache w w' C' g) (hobj : ∀ hash, Holds C' cache hash (a'.objects hash))
    (hmiss : ∀ h, Agree (Writes C' cache) (a'.misses h) (t'.misses h))
    (hnext : t'.next_miss = a'.next_miss) (hh : t'.hits = t.hits) (hah : a'.hits = a.hits)
    (hn : t'.next_hit = t.next_hit) (han : a'.next_hit = a.next_hit) : Sim cache t' w' a' where
  laid := l.laid
  objects := by rw [l.content]; exact hobj
  misses := by rw [l.content]; exact hmiss
  next_miss := hnext
  hits := fun h => by
    rw [hh, hah]
    exact (s.hits h).imp fun _ _ _ _ hr => hr.leads l
  next_hit := by rw [hn, han, s.next_hit]
  own_files := by rw [hh]; exact s.own_files

/-- Calls that change no contents leave the simulation as it is. -/
theorem Sim.same (s : Sim cache t w a) (l : Leads cache w w' w.tree.content g) :
    Sim cache t w' a :=
  s.of_leads l s.objects s.misses s.next_miss rfl rfl rfl rfl

theorem Sim.leads (s : Sim cache t w a) : Leads cache w w w.tree.content 0 := Leads.refl s.laid

variable {Q : operations.Reply M × Handlers → World → Prop}

theorem lookup_sim (s : Sim cache t w a) (key : K)
    (hQ : ∀ r t' w' a', a.exec (.lookup key : Op K M) = some (r, a') → Sim cache t' w' a' →
      Q (r, t') w') :
    ∀ p, program (tiered_cache cache).storage t (.lookup key) = some p → wp answer Calm p Q w := by
  intro p hp
  simp only [program, TieredStorage.storage, tiered_cache_lookup, Option.some.injEq] at hp
  subst hp
  rw [wp_bind]
  have hobj := s.objects (CacheHashKey.combined key)
  refine lookup_spec s.leads key (fun w' hmiss l => ?_) fun d mi mh w' hb hm hh l => ?_
  · cases ho : a.objects (CacheHashKey.combined key) with
    | none => exact hQ _ t w' a (by simp [MapState.exec, ho]) (s.same l)
    | some o =>
      rw [ho] at hobj
      obtain ⟨hb, mi, mh, hm, hh, _⟩ := hobj
      rw [hb, hm, hh] at hmiss
      simp at hmiss
  · cases ho : a.objects (CacheHashKey.combined key) with
    | none =>
      rw [ho] at hobj
      rw [hobj.1] at hb
      cases hb
    | some o =>
      rw [ho] at hobj
      obtain ⟨hb', mi', mh', hm', hh', hdec⟩ := hobj
      rw [hm] at hm'
      rw [hh] at hh'
      cases hm'
      cases hh'
      obtain ⟨cm, body⟩ := o
      obtain rfl : d = body := by rw [hb] at hb'; cases hb'; rfl
      obtain rfl : CacheMeta.deserialize mi mh = cm := hdec
      refine ⟨fun e he => ?_, fun cache_meta hit he hfresh hge => ?_⟩
      · exact hQ _ t w' a (by simp [MapState.exec, ho, he]) (s.same l)
      · refine hQ _ (t.addHit hit) w' (a.addHit d) ?_ ?_
        · simp [MapState.exec, ho, he, s.next_hit]
        · have s' := s.same l
          refine ⟨s'.laid, s'.objects, s'.misses, s'.next_miss, ?_, ?_, ?_⟩
          · intro h
            simp only [Handlers.addHit, MapState.addHit, s.next_hit]
            exact agree_update s'.hits a.next_hit _ _ (.both (reads_of_fresh hfresh))
              (fun _ _ _ _ _ _ hr => hr) h
          · simp [Handlers.addHit, MapState.addHit, s.next_hit]
          -- the new file was opened after those of all other handlers
          · have hlt : ∀ i hit', t.hits i = some hit' → hit'.file < w.opened := by
              intro i hit' hi
              have := s.hits i
              rw [hi] at this
              obtain ⟨_, _, hr⟩ := this.left_of_right
              exact hr.file_lt
            intro i j hi hj h1 h2 hfile
            simp only [Handlers.addHit, Function.update_apply] at h1 h2
            split at h1 <;> split at h2
            · rename_i e1 e2
              rw [e1, e2]
            · cases h1
              have := hlt j hj h2
              omega
            · cases h2
              have := hlt i hi h1
              omega
            · exact s.own_files i j hi hj h1 h2 hfile

theorem get_miss_handler_sim (s : Sim cache t w a) (key : K) (cache_meta : M)
    (hQ : ∀ r t' w' a', a.exec (.get_miss_handler key cache_meta : Op K M) = some (r, a') →
      (t'.Distinct → Sim cache t' w' a') → Q (r, t') w') :
    ∀ p, program (tiered_cache cache).storage t (.get_miss_handler key cache_meta) = some p →
      wp answer Calm p Q w := by
  intro p hp
  simp only [program, TieredStorage.storage, tiered_cache_get_miss_handler, Option.some.injEq] at hp
  subst hp
  rw [wp_bind]
  refine get_miss_handler_spec s.leads key cache_meta (fun e w' he l => ?_)
    fun mi mh m w' he hm hzero hmi hmh l => ?_
  · exact hQ _ t w' a (by simp [MapState.exec, he]) fun _ => s.same l
  · refine hQ _ (t.addMiss m) w' (a.addMiss ⟨CacheHashKey.combined key, cache_meta, []⟩) ?_ ?_
    · simp [MapState.exec, he, s.next_miss]
    · intro hdist
      obtain ⟨n, hn, ht⟩ := hm.tmp_path
      refine s.of_leads l (fun hash => ?_) (fun h => ?_) ?_ rfl rfl rfl rfl
      · rw [ht]
        exact holds_update_tmp hn _ (s.objects hash)
      · simp only [Handlers.addMiss, MapState.addMiss, s.next_miss]
        have hnew : Writes (Function.update w.tree.content m.tmp_path (some [])) cache
            ⟨CacheHashKey.combined key, cache_meta, []⟩ m :=
          ⟨hm, Function.update_self .., hzero, by rw [he, hmi, hmh]⟩
        refine agree_update s.misses a.next_miss _ _ (.both hnew) ?_ h
        -- the other handlers have other temporary files
        intro j x y hj _ hy hw
        refine hw.of_content (Function.update_of_ne ?_ _ _)
        intro heq
        refine hj (hdist j a.next_miss y m ?_ ?_ heq)
        · simp [Handlers.addMiss, s.next_miss, Function.update_of_ne hj, hy]
        · simp [Handlers.addMiss, s.next_miss]
      · simp [Handlers.addMiss, MapState.addMiss, s.next_miss]

theorem write_body_sim (s : Sim cache t w a) (hdist : t.Distinct) (h : Nat) (data : Bytes)
    (is_eof : Bool)
    (hQ : ∀ r t' w' a', a.exec (.write_body h data is_eof : Op K M) = some (r, a') →
      Sim cache t' w' a' → Q (r, t') w') :
    ∀ p, program (K := K) (tiered_cache cache).storage t (.write_body h data is_eof) = some p →
      wp answer Calm p Q w := by
  intro p hp
  simp only [program, Option.map_eq_some_iff] at hp
  obtain ⟨hd, hhd, rfl⟩ := hp
  have hag := s.misses h
  rw [hhd] at hag
  obtain ⟨m, ham, hw⟩ := hag.left_of_right
  rw [wp_bind]
  refine write_body_spec s.leads hw.paths data is_eof (fun hnone => ?_) fun d w' hd' l => ?_
  · rw [hw.content] at hnone
    cases hnone
  · obtain rfl : m.chunks.flatten = d := by rw [hw.content] at hd'; cases hd'; rfl
    refine hQ _ _ w' (a.setMiss h (some { m with chunks := m.chunks ++ [data] }))
      (by simp [MapState.exec, ham]) ?_
    obtain ⟨n, hn, ht⟩ := hw.paths.tmp_path
    refine s.of_leads l (fun hash => ?_) (fun i => ?_) s.next_miss rfl rfl rfl rfl
    · rw [ht]
      exact holds_update_tmp hn _ (s.objects hash)
    · rw [Handlers.misses_setMiss hhd]
      have hpaths : ({ hd with tmp_bytes_written := hd.tmp_bytes_written + data.length } :
          DiskMissHandler).Of cache m.hash :=
        ⟨hw.paths.dir, hw.paths.body_path, hw.paths.meta_path, hw.paths.hdr_path,
          hw.paths.tmp_path⟩
      refine agree_update s.misses h _ _
        (.both ⟨hpaths, by simp, by simp [hw.counted], hw.parts⟩) ?_ i
      intro j x y hj _ hy hr
      exact hr.of_content (Function.update_of_ne (fun he => hj (hdist j h y hd hy hhd he)) _ _)

theorem finish_sim (s : Sim cache t w a) (hdist : t.Distinct)
    (codec : ∀ (m : M) mi mh, CacheMeta.serialize m = .ok (mi, mh) →
      CacheMeta.deserialize mi mh = .ok m) (h : Nat)
    (hQ : ∀ r t' w' a', a.exec (.finish h : Op K M) = some (r, a') → Sim cache t' w' a' →
      Q (r, t') w') :
    ∀ p, program (K := K) (tiered_cache cache).storage t (.finish h) = some p →
      wp answer Calm p Q w := by
  intro p hp
  simp only [program, Option.map_eq_some_iff] at hp
  obtain ⟨hd, hhd, rfl⟩ := hp
  have hag := s.misses h
  rw [hhd] at hag
  obtain ⟨m, ham, hw⟩ := hag.left_of_right
  rw [wp_bind]
  refine finish_spec s.leads hw.paths (fun e w' hnone => ?_) fun d w' hd' l => ?_
  · rw [hw.content] at hnone
    cases hnone
  · obtain rfl : m.chunks.flatten = d := by rw [hw.content] at hd'; cases hd'; rfl
    refine hQ _ _ w' ((a.put m.hash (some ⟨.ok m.cache_meta, m.chunks.flatten⟩)).setMiss h none)
      ?_ ?_
    · simp [MapState.exec, ham, hw.counted]
    · obtain ⟨n, hn, ht⟩ := hw.paths.tmp_path
      refine s.of_leads l (fun hash => ?_) (fun i => ?_) s.next_miss rfl rfl rfl rfl
      · refine holds_withFiles _ _ _ (fun hash' => ?_) ?_ hash
        · rw [ht]
          exact holds_update_tmp hn _ (s.objects hash')
        · exact ⟨withFiles_body .., _, _, withFiles_meta .., withFiles_hdr ..,
            codec _ _ _ hw.parts⟩
      · rw [Handlers.misses_setMiss hhd]
        refine agree_update s.misses h _ _ .absent ?_ i
        intro j x y hj _ hy hr
        refine Writes.withFiles (hr.of_content ?_) _ _ _
        exact Function.update_of_ne (fun he => hj (hdist j h y hd hy hhd he)) _ _

theorem drop_sim (s : Sim cache t w a) (hdist : t.Distinct) (h : Nat)
    (hQ : ∀ r t' w' a', a.exec (.drop_handler h : Op K M) = some (r, a') → Sim cache t' w' a' →
      Q (r, t') w') :
    ∀ p, program (K := K) (tiered_cache cache).storage t (.drop_handler h) = some p →
      wp answer Calm p Q w := by
  intro p hp
  simp only [program, Option.map_eq_some_iff] at hp
  obtain ⟨hd, hhd, rfl⟩ := hp
  have hag := s.misses h
  rw [hhd] at hag
  obtain ⟨m, ham, hw⟩ := hag.left_of_right
  rw [wp_bind]
  refine drop_spec s.leads hw.paths fun w' l => ?_
  refine hQ _ _ w' (a.setMiss h none) (by simp [MapState.exec, ham]) ?_
  obtain ⟨n, hn, ht⟩ := hw.paths.tmp_path
  refine s.of_leads l (fun hash => ?_) (fun i => ?_) s.next_miss rfl rfl rfl rfl
  · rw [ht]
    exact holds_update_tmp hn _ (s.objects hash)
  · rw [Handlers.misses_setMiss hhd]
    refine agree_update s.misses h _ _ .absent ?_ i
    intro j x y hj _ hy hr
    exact hr.of_content (Function.update_of_ne (fun he => hj (hdist j h y hd hy hhd he)) _ _)

theorem purge_sim (s : Sim cache t w a) (key : K) (purge_type : PurgeType)
    (hQ : ∀ r t' w' a', a.exec (.purge key purge_type : Op K M) = some (r, a') →
      Sim cache t' w' a' → Q (r, t') w') :
    ∀ p, program (tiered_cache cache).storage t (.purge key purge_type : Op K M) = some p →
      wp answer Calm p Q w := by
  intro p hp
  simp only [program, TieredStorage.storage, tiered_cache_purge, TieredStorage.purge_or_default,
    Option.some.injEq] at hp
  subst hp
  simp only [wp_bind]
  refine purge_spec s.leads key purge_type fun w' l => ?_
  refine hQ _ t w' (a.put (CacheHashKey.combined key) none) ?_ ?_
  · have hobj := s.objects (CacheHashKey.combined key)
    simp only [MapState.exec]
    cases ho : a.objects (CacheHashKey.combined key) with
    | none =>
      rw [ho] at hobj
      rw [hobj.1]
      rfl
    | some o =>
      rw [ho] at hobj
      rw [hobj.1]
      rfl
  · refine s.of_leads l ?_ (fun i => (s.misses i).imp fun _ _ _ _ hr => hr.withFiles _ _ _)
      s.next_miss rfl rfl rfl rfl
    exact holds_withFiles _ _ _ s.objects ⟨withFiles_body .., withFiles_meta .., withFiles_hdr ..⟩

theorem update_meta_sim (s : Sim cache t w a)
    (codec : ∀ (m : M) mi mh, CacheMeta.serialize m = .ok (mi, mh) →
      CacheMeta.deserialize mi mh = .ok m) (key : K) (cache_meta : M)
    (hQ : ∀ r t' w' a', a.exec (.update_meta key cache_meta : Op K M) = some (r, a') →
      Sim cache t' w' a' → Q (r, t') w') :
    ∀ p, program (tiered_cache cache).storage t (.update_meta key cache_meta) = some p →
      wp answer Calm p Q w := by
  intro p hp
  simp only [program, TieredStorage.storage, tiered_cache_update_meta, Option.some.injEq] at hp
  subst hp
  rw [wp_bind]
  have hobj := s.objects (CacheHashKey.combined key)
  cases ho : a.objects (CacheHashKey.combined key) with
  | none =>
    rw [ho] at hobj
    refine update_meta_spec s.leads key cache_meta (fun _ => ?_) (fun d e hd _ => ?_)
      fun d mi mh w' hd _ _ => ?_
    · exact hQ _ t w a (by simp [MapState.exec, ho]) s
    · rw [hobj.1] at hd
      cases hd
    · rw [hobj.1] at hd
      cases hd
  | some o =>
    rw [ho] at hobj
    refine update_meta_spec s.leads key cache_meta (fun hnone => ?_) (fun d e hd he => ?_)
      fun d mi mh w' hd he l => ?_
    · rw [hobj.1] at hnone
      cases hnone
    · exact hQ _ t w a (by simp [MapState.exec, ho, he]) s
    · obtain rfl : o.body = d := by rw [hobj.1] at hd; cases hd; rfl
      refine hQ _ t w' (a.put (CacheHashKey.combined key) (some ⟨.ok cache_meta, o.body⟩))
        (by simp [MapState.exec, ho, he]) ?_
      refine s.of_leads l ?_ (fun i => (s.misses i).imp fun _ _ _ _ hr => hr.withFiles _ _ _)
        s.next_miss rfl rfl rfl rfl
      exact holds_withFiles _ _ _ s.objects
        ⟨withFiles_body .., _, _, withFiles_meta .., withFiles_hdr .., codec _ _ _ he⟩

theorem read_to_end_sim (s : Sim cache t w a) (h : Nat)
    (hQ : ∀ r t' w' a', a.exec (.read_to_end h : Op K M) = some (r, a') → Sim cache t' w' a' →
      Q (r, t') w') :
    ∀ p, program (K := K) (tiered_cache cache).storage t (.read_to_end h) = some p →
      wp answer Calm p Q w := by
  intro p hp
  simp only [program, Option.map_eq_some_iff] at hp
  obtain ⟨hit, hhit, rfl⟩ := hp
  have hag := s.hits h
  rw [hhit] at hag
  obtain ⟨rest, har, hr⟩ := hag.left_of_right
  obtain ⟨d, hs, rfl⟩ := hr.serves
  rw [wp_bind]
  refine read_to_end_spec hs rfl (Nat.lt_succ_of_le hr.enough) fun hit' w' hs' hf' hc hnil => ?_
  refine hQ _ (t.setHit h hit') w' (a.setHit h []) (by simp [MapState.exec, har]) ?_
  refine ⟨by rw [hc.tree]; exact s.laid, ?_, ?_, s.next_miss, ?_, s.next_hit, ?_⟩
  · rw [hc.tree]
    exact s.objects
  · rw [hc.tree]
    exact s.misses
  · intro i
    have hread : Reads w' cache [] hit' := by
      refine ⟨⟨d, hs', hnil⟩, ?_, ?_, ?_, Nat.zero_le _⟩
      · rw [hf', hc.opened]
        exact hr.file_lt
      · rw [hf', hc.tree, hc.ino]
        exact hr.ino_lt
      · rw [hf', hc.tree, hc.ino]
        exact hr.sealed
    refine agree_update s.hits h _ _ (.both hread) ?_ i
    intro j x y hj _ hy hrj
    exact hrj.cursorOnly hc fun he => hj (s.own_files j h y hit hy hhit he)
  · -- the handler keeps its file
    intro i j hi hj h1 h2 hfile
    simp only [Handlers.setHit, Function.update_apply] at h1 h2
    split at h1 <;> split at h2
    · rename_i e1 e2
      rw [e1, e2]
    · rename_i e1 _
      cases h1
      rw [e1]
      exact s.own_files h j hit hj hhit h2 (by rw [← hf', hfile])
    · rename_i _ e2
      cases h2
      rw [e2]
      exact s.own_files i h hi hit h1 hhit (by rw [← hf', hfile])
    · exact s.own_files i j hi hj h1 h2 hfile

end

/-- One operation on the disk returns what the map returns, and the map follows. -/
theorem step_sim (codec : ∀ (m : M) mi mh, CacheMeta.serialize m = .ok (mi, mh) →
      CacheMeta.deserialize mi mh = .ok m) {c c' : Handlers × World} {o : Op K M}
    {r : operations.Reply M} (s : Sim cache c.1 c.2 a) (hdist : c.1.Distinct)
    (h : Step (tiered_cache cache).storage c o r c') (hdist' : c'.1.Distinct) :
    ∃ a', a.exec o = some (r, a') ∧ Sim cache c'.1 c'.2 a' := by
  refine Step.sound (Q := fun x w' => x.2.Distinct →
    ∃ a', a.exec o = some (x.1, a') ∧ Sim cache x.2 w' a') h ?_ hdist'
  cases o with
  | lookup key => exact lookup_sim s key fun r t' w' a' h1 h2 _ => ⟨a', h1, h2⟩
  | get_miss_handler key cache_meta =>
    exact get_miss_handler_sim s key cache_meta fun r t' w' a' h1 h2 hd => ⟨a', h1, h2 hd⟩
  | write_body i data is_eof =>
    exact write_body_sim s hdist i data is_eof fun r t' w' a' h1 h2 _ => ⟨a', h1, h2⟩
  | finish i => exact finish_sim s hdist codec i fun r t' w' a' h1 h2 _ => ⟨a', h1, h2⟩
  | drop_handler i => exact drop_sim s hdist i fun r t' w' a' h1 h2 _ => ⟨a', h1, h2⟩
  | purge key purge_type => exact purge_sim s key purge_type fun r t' w' a' h1 h2 _ => ⟨a', h1, h2⟩
  | update_meta key cache_meta =>
    exact update_meta_sim s codec key cache_meta fun r t' w' a' h1 h2 _ => ⟨a', h1, h2⟩
  | read_to_end i => exact read_to_end_sim s i fun r t' w' a' h1 h2 _ => ⟨a', h1, h2⟩

/-- The map that a disk holds. -/
def disk_map (cache : DiskCache) (w : World) : MapState M where
  objects hash :=
    match w.tree.content (cache.body hash), w.tree.content (cache.meta_part hash),
      w.tree.content (cache.hdr hash) with
    | some b, some mi, some mh => some ⟨CacheMeta.deserialize mi mh, b⟩
    | _, _, _ => none
  misses _ := none
  next_miss := 0
  hits _ := none
  next_hit := 0

/-- Of the three files of a key, all stand there or none. -/
def AllOrNone (cache : DiskCache) (C : Contents) (hash : CombinedHash) : Prop :=
  ((C (cache.body hash)).isSome ∧ (C (cache.meta_part hash)).isSome ∧ (C (cache.hdr hash)).isSome) ∨
  (C (cache.body hash) = none ∧ C (cache.meta_part hash) = none ∧ C (cache.hdr hash) = none)

theorem disk_map_sim (hw : cache.Laid w.tree)
    (hall : ∀ hash, AllOrNone cache w.tree.content hash) :
    Sim cache Handlers.empty w (disk_map cache w : MapState M) := by
  refine ⟨hw, fun hash => ?_, fun _ => .absent, rfl, fun _ => .absent, rfl, ?_⟩
  · simp only [disk_map]
    rcases hall hash with ⟨hb, hm, hh⟩ | ⟨hb, hm, hh⟩
    · obtain ⟨b, hb⟩ := Option.isSome_iff_exists.mp hb
      obtain ⟨mi, hm⟩ := Option.isSome_iff_exists.mp hm
      obtain ⟨mh, hh⟩ := Option.isSome_iff_exists.mp hh
      rw [hb, hm, hh]
      exact ⟨hb, mi, mh, hm, hh, rfl⟩
    · rw [hb, hm, hh]
      exact ⟨hb, hm, hh⟩
  · intro h h' hit hit' hh
    cases hh

/-- A run of whole operations on the deployed storage, in which handlers that are alive at
the same time have temporary files of their own, returns what the map returns, and ends
with the map on the disk. -/
theorem runs_of_the_deployed_storage_are_runs_of_a_map
    (codec : ∀ (m : M) mi mh, CacheMeta.serialize m = .ok (mi, mh) →
      CacheMeta.deserialize mi mh = .ok m)
    (cache : DiskCache) (w : World) (hw : cache.Laid w.tree)
    (hall : ∀ hash, AllOrNone cache w.tree.content hash)
    (tr : List (Op K M × operations.Reply M)) (c : Handlers × World)
    (h : Runs (tiered_cache cache).storage (fun _ _ c' => c'.1.Distinct) (Handlers.empty, w) tr c) :
    ∃ a, MapState.Gives (disk_map cache w) tr a ∧ Sim cache c.1 c.2 a := by
  have hrun : ∃ a, MapState.Gives (disk_map cache w) tr a ∧ Sim cache c.1 c.2 a ∧
      c.1.Distinct := by
    -- the induction is on the run, and the simulation carries it
    induction h with
    | nil => exact ⟨_, .nil _, disk_map_sim hw hall, fun _ _ _ _ hm => nomatch hm⟩
    | snoc _ hstep hdist ih =>
      obtain ⟨a, hgives, hsim, hd⟩ := ih
      obtain ⟨a', hexec, hsim'⟩ := step_sim codec hsim hd hstep hdist
      exact ⟨a', .snoc hgives hexec, hsim', hdist⟩
  obtain ⟨a, hgives, hsim, _⟩ := hrun
  exact ⟨a, hgives, hsim⟩

/-- A miss on an empty disk, written, finished, looked up and read. -/
def small_trace : List (Op CombinedHash Note × operations.Reply Note) :=
  [(.get_miss_handler small_hash ⟨[7]⟩, .handler (.ok 0)),
    (.write_body 0 [1, 2] true, .written (.ok ())),
    (.finish 0, .finished (.ok (.Created 2))),
    (.lookup small_hash, .found (.ok (some (⟨[7]⟩, 0)))),
    (.read_to_end 0, .bytes (.ok [1, 2]))]

theorem small_trace_runs : ∃ c, Runs (tiered_cache small_cache).storage
    (fun _ _ c' => c'.1.Distinct) (Handlers.empty, empty_world) small_trace c := by
  let s := (tiered_cache small_cache : TieredStorage Prog CombinedHash Note _ _).storage
  let R := Runs s (fun _ _ c' => c'.1.Distinct) (Handlers.empty, empty_world)
  let c1 := after s (Handlers.empty, empty_world) (.get_miss_handler small_hash ⟨[7]⟩) 6
  let c2 := after s c1 (.write_body 0 [1, 2] true) 3
  let c3 := after s c2 (.finish 0) 7
  let c4 := after s c3 (.lookup small_hash) 7
  let c5 := after s c4 (.read_to_end 0) 2
  have h1 : R (small_trace.take 1) c1 := .snoc (.nil _) (step_after (by decide +kernel))
    (Handlers.distinct_of_one (by decide +kernel))
  have h2 : R (small_trace.take 2) c2 := .snoc h1 (step_after (by decide +kernel))
    (Handlers.distinct_of_one (by decide +kernel))
  have h3 : R (small_trace.take 3) c3 := .snoc h2 (step_after (by decide +kernel))
    (Handlers.distinct_of_one (by decide +kernel))
  have h4 : R (small_trace.take 4) c4 := .snoc h3 (step_after (by decide +kernel))
    (Handlers.distinct_of_one (by decide +kernel))
  exact ⟨c5, .snoc h4 (step_after (by decide +kernel))
    (Handlers.distinct_of_one (by decide +kernel))⟩

theorem a_small_run_is_a_run_of_a_map : ∃ c a,
    Runs (tiered_cache small_cache).storage (fun _ _ c' => c'.1.Distinct)
      (Handlers.empty, empty_world) small_trace c ∧
    MapState.Gives (disk_map small_cache empty_world) small_trace a ∧
    Sim small_cache c.1 c.2 a := by
  obtain ⟨c, h⟩ := small_trace_runs
  obtain ⟨a, hgives, hsim⟩ := runs_of_the_deployed_storage_are_runs_of_a_map note_codec
    small_cache empty_world (empty_world_laid _) (fun _ => Or.inr ⟨rfl, rfl, rfl⟩) small_trace c h
  exact ⟨c, a, h, hgives, hsim⟩

end edge_cdn_store.refinement
