-- Clients of many keys at the same time, one client for each key. However their
-- calls come in between one another, each client gets what a map would give it that
-- nobody else uses.
import EdgeCdnStore.HeldFiles
import EdgeCdnStore.KeyIsolation
import EdgeCdnStore.Refinement

open edge_cdn_store.programs edge_cdn_store.programs.Program edge_cdn_store.io
open edge_cdn_store.logger edge_cdn_store.disk_cache edge_cdn_store.tiered
open edge_cdn_store.operations edge_cdn_store.pools edge_cdn_store.sites
open edge_cdn_store.refinement edge_cdn_store.held_files edge_cdn_store.key_isolation

namespace edge_cdn_store.pools.System

variable {E : Type} {R : E → Type} {C S α N H T : Type} {sys : System E R C S α N H T}

/-- A program that is the only one to make calls, and has come to its end, has run alone. -/
theorem run_of_schedule {p q : Pool E R α N S H} {i : Nat} {x : Program E R α} {n n' : N} {a : α}
    {evs : List (Nat × C)} (hi : p.threads[i]? = some (x, n)) (hall : ∀ ev ∈ evs, ev.1 = i)
    (hr : sys.schedule p evs = some q) (hdone : q.threads[i]? = some (.done a, n')) :
    Program.run sys.env x (evs.map Prod.snd) p.state = some (a, q.state) := by
  induction evs generalizing p x n with
  | nil =>
    cases hr
    rw [hi] at hdone
    cases hdone
    rfl
  | cons ev evs ih =>
    obtain ⟨j, c⟩ := ev
    obtain rfl : j = i := hall _ List.mem_cons_self
    unfold schedule at hr
    rw [List.map_cons, System.run] at hr
    cases hs : sys.step p (.call j c) with
    | none =>
      rw [hs] at hr
      cases hr
    | some p1 =>
      rw [hs] at hr
      obtain ⟨e, k, m, hcall, rfl⟩ := step_call_eq_some hs
      rw [hi] at hcall
      cases hcall
      have hlt : j < p.threads.length := (List.getElem?_eq_some_iff.mp hi).1
      refine ih (n := sys.next n e (sys.env e c p.state).1) ?_
        (fun ev hev => hall ev (List.mem_cons_of_mem _ hev)) hr
      simp [hlt]

end edge_cdn_store.pools.System

namespace edge_cdn_store.client_maps

section
variable {K M α : Type} [CacheHashKey K] [CacheMeta M]

/-! ## What a client does with a map -/

/-- What a client comes to on a map, and the map after it. -/
def asks : Client K M α → MapState M → α × MapState M
  | .done x, a => (x, a)
  | .call o k, a =>
    match a.exec o with
    | none => asks (k none) a
    | some (r, a') => asks (k (some r)) a'

/-- The handler of a miss that a client has, after an operation and what it gave. -/
def under_way (live : Option Nat) : Op K M → Option (Reply M) → Option Nat
  | .get_miss_handler _ _, some (.handler (.ok h)) => some h
  | .finish _, some _ => none
  | .drop_handler _, some _ => none
  | _, _ => live

/-- A client asks for the handler of a miss when it has none. -/
def InTurn (live : Option Nat) : Op K M → Prop
  | .get_miss_handler _ _ => live = none
  | _ => True

/-- One miss after the other. -/
def OneMiss (client : Client K M α) : Prop :=
  client.Obeys InTurn under_way (fun _ _ => True) none

/-- The only handler of a miss that may be there. -/
def Alone (live : Option Nat) (t : Handlers) : Prop := ∀ h m, t.misses h = some m → live = some h

theorem Alone.distinct {live : Option Nat} {t : Handlers} (h : Alone live t) : t.Distinct := by
  intro i j m m' hi hj _
  have hsame := (h i m hi).symm.trans (h j m' hj)
  exact Option.some.inj hsame

theorem Alone.setMiss {live : Option Nat} {t : Handlers} {h : Nat} {m m' : DiskMissHandler}
    (ha : Alone live t) (hm : t.misses h = some m) : Alone live (t.setMiss h (some m')) := by
  intro i x hi
  rw [Handlers.misses_setMiss hm, Function.update_apply] at hi
  split at hi
  · rename_i heq
    rw [heq]
    exact ha h m hm
  · exact ha i x hi

theorem Alone.release {live : Option Nat} {t : Handlers} {h : Nat} {m : DiskMissHandler}
    (ha : Alone live t) (hm : t.misses h = some m) : Alone none (t.setMiss h none) := by
  intro i x hi
  rw [Handlers.misses_setMiss hm, Function.update_apply] at hi
  split at hi
  · cases hi
  · rename_i hne
    have hsame := (ha h m hm).symm.trans (ha i x hi)
    exact absurd (Option.some.inj hsame).symm hne

/-- The numbers of all hits are held. -/
def HitsHeld (held : List Nat) (t : Handlers) : Prop :=
  ∀ h hit, t.hits h = some hit → hit.file ∈ held

theorem HitsHeld.mono {held held' : List Nat} {t : Handlers} (h : HitsHeld held t)
    (hsub : held ⊆ held') : HitsHeld held' t := fun i hit hi => hsub (h i hit hi)

/-! ## One operation -/

variable {cache : DiskCache} {t : Handlers} {held : List Nat} {live : Option Nat} {o : Op K M}
  {p : Prog (Reply M × Handlers)}

/-- An operation goes by the numbers that the client holds, and leaves it at most the one
handler of a miss. -/
theorem program_by_held (hh : HitsHeld held t) (ha : Alone live t) (ho : InTurn live o)
    (hp : program (disk_storage cache) t o = some p) :
    p.Obeys ByHeld hold (fun r held' => HitsHeld held' r.2 ∧
      Alone (under_way live o (some r.1)) r.2) held := by
  cases o with
  | lookup key =>
    cases hp
    simp only [disk_storage, obeys_bind]
    refine obeys_mono (obeys_grows (lookup_by_held key)) fun r held' h => ?_
    cases r with
    | error e => exact ⟨hh.mono h.2, ha⟩
    | ok r =>
      cases r with
      | none => exact ⟨hh.mono h.2, ha⟩
      | some x =>
        obtain ⟨m, hit⟩ := x
        refine ⟨?_, ha⟩
        intro i y hi
        simp only [Handlers.addHit, Function.update_apply] at hi
        split at hi
        · cases hi
          exact h.1 m hit rfl
        · exact h.2 (hh i y hi)
  | get_miss_handler key cache_meta =>
    cases hp
    simp only [disk_storage, obeys_bind]
    refine obeys_mono (obeys_grows (obeys_of_no_handles
      (get_miss_handler_no_handles key cache_meta) held)) fun r held' h => ?_
    cases r with
    | error e => exact ⟨hh.mono h.2, ha⟩
    | ok m =>
      refine ⟨hh.mono h.2, ?_⟩
      intro i x hi
      simp only [Handlers.addMiss, Function.update_apply] at hi
      split at hi
      · rename_i heq
        rw [heq]
        rfl
      · have hlive := ha i x hi
        rw [show live = none from ho] at hlive
        cases hlive
  | write_body h data is_eof =>
    obtain ⟨m, hm, rfl⟩ := Option.map_eq_some_iff.mp hp
    simp only [obeys_bind]
    refine obeys_mono (obeys_grows (write_body_by_held m data is_eof)) fun r held' hr => ?_
    exact ⟨hh.mono hr.2, ha.setMiss hm⟩
  | finish h =>
    obtain ⟨m, hm, rfl⟩ := Option.map_eq_some_iff.mp hp
    simp only [obeys_bind]
    refine obeys_mono (obeys_grows (finish_by_held m)) fun r held' hr => ?_
    exact ⟨hh.mono hr.2, ha.release hm⟩
  | drop_handler h =>
    obtain ⟨m, hm, rfl⟩ := Option.map_eq_some_iff.mp hp
    simp only [obeys_bind]
    have hdrop : m.drop.Calls NoHandles := calls_bind (calls_perform.mpr rfl) fun _ => calls_pure _
    refine obeys_mono (obeys_grows (obeys_of_no_handles hdrop held)) fun r held' hr => ?_
    exact ⟨hh.mono hr.2, ha.release hm⟩
  | purge key purge_type =>
    cases hp
    simp only [disk_storage, obeys_bind]
    refine obeys_mono (obeys_grows (obeys_of_no_handles (purge_calls key purge_type
      (fun _ _ => rfl) (fun _ => rfl) rfl (fun _ => rfl) rfl) held)) fun r held' hr => ?_
    exact ⟨hh.mono hr.2, ha⟩
  | update_meta key cache_meta =>
    cases hp
    simp only [disk_storage, obeys_bind]
    refine obeys_mono (obeys_grows (obeys_of_no_handles (update_meta_calls key cache_meta
      rfl (fun _ => rfl) fun _ => rfl) held)) fun r held' hr => ?_
    exact ⟨hh.mono hr.2, ha⟩
  | read_to_end h =>
    obtain ⟨hit, hhit, rfl⟩ := Option.map_eq_some_iff.mp hp
    simp only [obeys_bind]
    refine obeys_mono (obeys_grows (read_to_end_by_held _ (hh h hit hhit))) fun r held' hr => ?_
    refine ⟨?_, ha⟩
    intro i y hi
    simp only [Handlers.setHit, Function.update_apply] at hi
    split at hi
    · cases hi
      exact hr.1
    · exact hr.2 (hh i y hi)

/-- An operation with a handler that the client does not have gives nothing on the map either. -/
theorem exec_none {w : World} {a : MapState M} (s : Sim cache t w a)
    (hp : program (disk_storage cache) t o = none) : a.exec o = none := by
  cases o with
  | lookup key => cases hp
  | get_miss_handler key cache_meta => cases hp
  | write_body h data is_eof =>
    have hag := s.misses h
    rw [Option.map_eq_none_iff.mp hp] at hag
    generalize hx : a.misses h = x at hag
    cases hag
    simp [MapState.exec, hx]
  | finish h =>
    have hag := s.misses h
    rw [Option.map_eq_none_iff.mp hp] at hag
    generalize hx : a.misses h = x at hag
    cases hag
    simp [MapState.exec, hx]
  | drop_handler h =>
    have hag := s.misses h
    rw [Option.map_eq_none_iff.mp hp] at hag
    generalize hx : a.misses h = x at hag
    cases hag
    simp [MapState.exec, hx]
  | purge key purge_type => cases hp
  | update_meta key cache_meta => cases hp
  | read_to_end h =>
    have hag := s.hits h
    rw [Option.map_eq_none_iff.mp hp] at hag
    generalize hx : a.hits h = x at hag
    cases hag
    simp [MapState.exec, hx]

/-- A purge of the disk cache itself does on the map what a purge of the deployed storage does. -/
theorem disk_purge_sim {w : World} {a : MapState M} (s : Sim cache t w a) (key : K)
    (purge_type : PurgeType) {Q : Reply M × Handlers → World → Prop}
    (hQ : ∀ r w' a', a.exec (.purge key purge_type : Op K M) = some (r, a') →
      Sim cache t w' a' → Q (r, t) w') :
    wp answer Calm (cache.purge key purge_type) (fun r w' => Q (.existed r, t) w') w := by
  refine purge_spec s.leads key purge_type fun w' l => ?_
  refine hQ _ w' (a.put (CacheHashKey.combined key) none) ?_ ?_
  · have hobj := s.objects (CacheHashKey.combined key)
    simp only [MapState.exec]
    cases ho : a.objects (CacheHashKey.combined key) with
    | none =>
      rw [ho] at hobj
      rw [hobj.1]
      rfl
    | some o =>
      rw [ho] at hobj
      rw [hobj.1]
      rfl
  · refine s.of_leads l ?_ (fun i => (s.misses i).imp fun _ _ _ _ hr => hr.withFiles _ _ _)
      s.next_miss rfl rfl rfl rfl
    exact holds_withFiles _ _ _ s.objects ⟨withFiles_body .., withFiles_meta .., withFiles_hdr ..⟩

section
variable (codec : ∀ (m : M) mi mh, CacheMeta.serialize m = .ok (mi, mh) →
  CacheMeta.deserialize mi mh = .ok m)
include codec

/-- An operation does on the disk what it does on the map. -/
theorem program_sim {w : World} {a : MapState M} (s : Sim cache t w a) (hdist : t.Distinct)
    (hp : program (disk_storage cache) t o = some p) :
    wp answer Calm p (fun x w' => x.2.Distinct →
      ∃ a', a.exec o = some (x.1, a') ∧ Sim cache x.2 w' a') w := by
  cases o with
  | lookup key =>
    refine lookup_sim s key (fun r t' w' a' h1 h2 _ => ⟨a', h1, h2⟩) p ?_
    simpa only [program, TieredStorage.storage, tiered_cache_lookup, disk_storage] using hp
  | get_miss_handler key cache_meta =>
    refine get_miss_handler_sim s key cache_meta (fun r t' w' a' h1 h2 hd => ⟨a', h1, h2 hd⟩) p ?_
    simpa only [program, TieredStorage.storage, tiered_cache_get_miss_handler, disk_storage]
      using hp
  | write_body h data is_eof =>
    exact write_body_sim s hdist h data is_eof (fun r t' w' a' h1 h2 _ => ⟨a', h1, h2⟩) p hp
  | finish h => exact finish_sim s hdist codec h (fun r t' w' a' h1 h2 _ => ⟨a', h1, h2⟩) p hp
  | drop_handler h => exact drop_sim s hdist h (fun r t' w' a' h1 h2 _ => ⟨a', h1, h2⟩) p hp
  | purge key purge_type =>
    cases hp
    simp only [disk_storage, wp_bind]
    exact disk_purge_sim (Q := fun x w' => x.2.Distinct →
      ∃ a', a.exec (.purge key purge_type) = some (x.1, a') ∧ Sim cache x.2 w' a') s key purge_type
      fun r w' a' h1 h2 _ => ⟨a', h1, h2⟩
  | update_meta key cache_meta =>
    refine update_meta_sim s codec key cache_meta (fun r t' w' a' h1 h2 _ => ⟨a', h1, h2⟩) p ?_
    simpa only [program, TieredStorage.storage, tiered_cache_update_meta, disk_storage] using hp
  | read_to_end h => exact read_to_end_sim s h (fun r t' w' a' h1 h2 _ => ⟨a', h1, h2⟩) p hp

/-! ## A client alone -/

/-- A client that has the machine for itself comes to what it comes to on the map. -/
theorem session_asks (client : Client K M α) (held : List Nat) (live : Option Nat) {w : World}
    {a : MapState M} (s : Sim cache t w a) (hh : HitsHeld held t) (hheld : ∀ f ∈ held, f < w.opened)
    (ha : Alone live t)
    (hc : client.Obeys InTurn under_way (fun _ _ => True) live) :
    wp bounded Calm (session cache client t)
      (fun x w' => x = (asks client a).1 ∧ ∃ t', Sim cache t' w' (asks client a).2) w := by
  induction client generalizing t held live w a with
  | done x => exact ⟨rfl, t, s⟩
  | call o k ih =>
    unfold session asks
    cases hp : program (disk_storage cache) t o with
    | none =>
      rw [exec_none s hp]
      have hlive : under_way live o none = live := by
        cases o <;> rfl
      refine ih none held live s hh hheld ha ?_
      rw [← hlive]
      exact hc.2 none
    | some p =>
      simp only [wp_bind]
      -- the operation goes by open numbers only, so nothing is refused
      have hrun := wp_bounded (program_by_held hh ha hc.1 hp) hheld
        (program_sim codec s ha.distinct hp)
      refine wp_mono hrun ?_
      rintro ⟨r, t'⟩ w' ⟨hsim, held', ⟨hh', ha'⟩, hheld'⟩
      obtain ⟨a', hexec, s'⟩ := hsim ha'.distinct
      rw [hexec]
      exact ih (some r) held' _ s' hh' hheld' ha' (hc.2 (some r))

end

/-! ## Clients at the same time -/

theorem wp_session {ok : Choice → Prop} (i : Nat) (p : Prog α) (Q : α → Site → Prop) (s : Site) :
    wp respond ok (p.sent fun e => (i, e)) Q s ↔
      wp bounded ok p (fun a w => Q a (s.put i w)) (s.world i) := by
  apply wp_sent (fun s : Site => s.world i) fun s w => s.put i w
  · intro s w
    simp [Site.world]
  · intro s w w'
    simp [Site.put]
  · intro s
    exact put_world s i
  · intro e c s
    rfl

/-- However the calls of clients with different keys come in between one another, each client
that has one miss after the other, and is done, has come to what it would come to on the map
that the disk held for it at the start, and the disk holds for its key what that map holds. -/
theorem clients_of_different_keys_have_maps_of_their_own
    (codec : ∀ (m : M) mi mh, CacheMeta.serialize m = .ok (mi, mh) →
      CacheMeta.deserialize mi mh = .ok m)
    (cache : DiskCache) (clients : List (KeyClient K M α))
    (hkeys : (clients.map KeyClient.hash).Nodup)
    (tree : file_tree.FileTree (List Char) UInt8) (metrics : CacheMetrics) (pid : Nat)
    (hlaid : cache.Laid tree) (hall : ∀ hash, AllOrNone cache tree.content hash)
    (evs : List (Nat × Choice)) (hcalm : ∀ ev ∈ evs, Calm ev.2) (p : ClientPool α)
    (hr : (client_system K M α cache).schedule
      (opening cache clients (.start tree metrics pid)) evs = some p)
    (i : Nat) (client : KeyClient K M α) (hi : clients[i]? = some client)
    (hone : OneMiss client.ops) (a : α) (hdone : p.results[i]? = some (some a)) :
    let map := disk_map cache ((Site.start tree metrics pid).world i)
    a = (asks client.ops map).1 ∧
      Holds p.state.tree.content cache client.hash
        ((asks client.ops map).2.objects client.hash) := by
  intro map
  let hash := client.hash
  obtain ⟨n, hdone⟩ := Pool.results_getElem? hdone
  have hkey : key_of clients i = some hash := by
    simp [key_of, hi, hash]
  -- without the other clients the same happens to this one
  obtain ⟨r, hstart⟩ := siteAlike_start cache hash (key_of clients) tree metrics pid
  have hknown : (Site.start tree metrics pid).Known := fun j f hf => absurd hf (Nat.not_lt_zero f)
  obtain ⟨p', hrun, hsame, ⟨_, ⟨r', halike⟩, _⟩, hshows⟩ := unwinding.run
    (opening_obedient cache clients (.start tree metrics pid))
    (SameFor.refl _ _) ⟨hknown, ⟨r, hstart⟩, rfl⟩ hr
  simp only [shows_opening] at hrun hshows
  have hdone' : p'.threads[i]? = some (.done a, n) := by
    rw [hsame.threads i (by rw [hshows i]; exact decide_eq_true hkey)]
    exact hdone
  -- it is the only one of its key, so it runs alone
  have hall' : ∀ ev ∈ evs.filter fun x => key_of clients x.1 = some hash, ev.1 = i := by
    intro ev hev
    have hown := of_decide_eq_true (List.mem_filter.mp hev).2
    unfold key_of at hown hkey
    rw [← List.getElem?_map] at hown hkey
    have hlt := (List.getElem?_eq_some_iff.mp hown).1
    exact (List.getElem?_inj hlt hkeys).mp (hown.trans hkey.symm)
  have hopen : (opening cache clients (.start tree metrics pid)).threads[i]? =
      some ((session cache client.ops .empty).sent fun e => (i, e), i) := by
    rw [opening_getElem?, hi]
    rfl
  have halone := System.run_of_schedule hopen hall' hrun hdone'
  have hcalm' : ∀ c ∈ (evs.filter fun x => key_of clients x.1 = some hash).map Prod.snd,
      Calm c := by
    intro c hc
    obtain ⟨ev, hev, rfl⟩ := List.mem_map.mp hc
    exact hcalm ev (List.mem_filter.mp hev).1
  have hsession := session_asks codec client.ops [] none
    (disk_map_sim hlaid hall : Sim cache .empty ((Site.start tree metrics pid).world i) map)
    (fun h hit hh => by cases hh) (fun _ hf => absurd hf List.not_mem_nil)
    (fun h m hm => by cases hm) hone
  have hworld : ∀ (s : Site) (w : World), (s.put i w).world i = w := by
    intro s w
    simp [Site.world, Site.put]
  have hend := run_sound (Q := fun x s' => x = (asks client.ops map).1 ∧
    ∃ t', Sim cache t' (s'.world i) (asks client.ops map).2) halone hcalm'
    ((wp_session i _ _ _).mpr (wp_mono hsession fun x w h => by rwa [hworld]))
  obtain ⟨ha, t', hsim⟩ := hend
  refine ⟨ha, ?_⟩
  -- what stands in the directory of the key is the same in both runs
  have hfiles : ∀ x, p'.state.tree.content (cache.entry hash x) =
      p.state.tree.content (cache.entry hash x) := by
    intro x
    exact halike.tree.content (List.prefix_append _ _)
  have hobj : Holds p'.state.tree.content cache hash ((asks client.ops map).2.objects hash) :=
    hsim.objects hash
  revert hobj
  cases (asks client.ops map).2.objects hash with
  | none =>
    unfold Holds
    simp only [hfiles]
    exact id
  | some o =>
    unfold Holds
    simp only [hfiles]
    exact id

end

/-! ## One client purges while the other fills and reads -/

/-- Fills the second key, and reads what it has stored. -/
def reader : SmallClient where
  hash := second_hash
  ops := .call (.get_miss_handler second_hash ⟨[7]⟩) fun _ =>
    .call (.write_body 0 [1, 2] true) fun _ => .call (.finish 0) fun _ =>
    .call (.lookup second_hash) fun _ => .call (.read_to_end 0) .done
  keeps := ⟨rfl, fun _ => ⟨trivial, fun _ => ⟨trivial, fun _ => ⟨rfl, fun _ =>
    ⟨trivial, fun _ => trivial⟩⟩⟩⟩⟩

/-- The other client purges when the miss has made its directory, and none of its files. -/
def purge_and_read : List (Nat × Choice) :=
  List.replicate 4 (1, plain) ++ List.replicate 6 (0, plain) ++ List.replicate 21 (1, plain)

theorem the_reader_gets_what_it_stored : ∃ p,
    (client_system CombinedHash operations.Note _ small_cache).schedule
      (opening small_cache [purger, reader] (.start (.empty _ _) (.new 0) 1)) purge_and_read =
        some p ∧
    some (.bytes (.ok [1, 2])) = (asks reader.ops (disk_map small_cache empty_world)).1 ∧
    Holds p.state.tree.content small_cache second_hash
      (some ⟨.ok (⟨[7]⟩ : operations.Note), [1, 2]⟩) := by
  obtain ⟨p, hp⟩ := Option.isSome_iff_exists.mp (by decide +kernel :
    ((client_system CombinedHash operations.Note _ small_cache).schedule
      (opening small_cache [purger, reader] (.start (.empty _ _) (.new 0) 1))
      purge_and_read).isSome)
  have hdone : (((client_system CombinedHash operations.Note _ small_cache).schedule
      (opening small_cache [purger, reader] (.start (.empty _ _) (.new 0) 1))
      purge_and_read).bind fun p => p.results[1]?) = some (some (some (.bytes (.ok [1, 2])))) := by
    decide +kernel
  rw [hp] at hdone
  have hone : OneMiss reader.ops :=
    ⟨rfl, fun _ => ⟨trivial, fun _ => ⟨trivial, fun _ => ⟨trivial, fun _ =>
      ⟨trivial, fun _ => trivial⟩⟩⟩⟩⟩
  have codec : ∀ (m : operations.Note) mi mh, CacheMeta.serialize m = .ok (mi, mh) →
      CacheMeta.deserialize mi mh = .ok m := by
    intro m mi mh h
    cases h
    rfl
  obtain ⟨h1, h2⟩ := clients_of_different_keys_have_maps_of_their_own codec small_cache
    [purger, reader] (by decide) (.empty _ _) (.new 0) 1 (empty_world_laid _)
    (fun _ => Or.inr ⟨rfl, rfl, rfl⟩) purge_and_read (by decide) p hp 1 reader rfl hone _ hdone
  exact ⟨p, hp, h1, h2⟩

end edge_cdn_store.client_maps
