-- Clients of several keys at the same time. What the clients of one key get, and
-- what is left in the directory of that key, is the same as if the clients of the
-- other keys had done nothing.
import EdgeCdnStore.KeyViews
import EdgeCdnStore.Unwinding
import EdgeCdnStore.Operations

open edge_cdn_store.programs edge_cdn_store.programs.Program edge_cdn_store.io
open edge_cdn_store.file_tree edge_cdn_store.file_tree.FileTree
open edge_cdn_store.logger edge_cdn_store.disk_cache edge_cdn_store.tiered
open edge_cdn_store.operations edge_cdn_store.pools edge_cdn_store.sites edge_cdn_store.key_views

namespace edge_cdn_store.key_isolation

/-! ## The clients -/

section
variable {K M α : Type} [CacheHashKey K] [CacheMeta M]

/-- A client asks for one operation after another, and each may depend on what the earlier
ones gave. An operation with a handler that the client does not have gives nothing. -/
abbrev Client (K M α : Type) := Program (Op K M) (fun _ => Option (Reply M)) α

/-- An operation on a key, or with a handler. -/
def Op.On (hash : CombinedHash) : Op K M → Prop
  | .lookup key => CacheHashKey.combined key = hash
  | .get_miss_handler key _ => CacheHashKey.combined key = hash
  | .purge key _ => CacheHashKey.combined key = hash
  | .update_meta key _ => CacheHashKey.combined key = hash
  | _ => True

/-- What a client does on the disk cache, with the handlers that it has. -/
def session (cache : DiskCache) : Client K M α → Handlers → Prog α
  | .done a, _ => pure a
  | .call o k, t =>
    match program (disk_storage cache) t o with
    | none => session cache (k none) t
    | some p => do
      let (r, t) ← p
      session cache (k (some r)) t

variable {cache : DiskCache} {hash : CombinedHash}

/-- The handlers of a client are handlers of its key. -/
def HandlersOf (cache : DiskCache) (hash : CombinedHash) (t : Handlers) : Prop :=
  ∀ h m, t.misses h = some m → m.Of cache hash

theorem HandlersOf.setMiss {t : Handlers} (ht : HandlersOf cache hash t) (h : Nat)
    {m : Option DiskMissHandler} (hm : ∀ m', m = some m' → m'.Of cache hash) :
    HandlersOf cache hash (t.setMiss h m) := by
  intro h' m' hm'
  unfold Handlers.setMiss at hm'
  simp only at hm'
  split at hm'
  · by_cases hh : h' = h
    · rw [hh, Function.update_self] at hm'
      exact hm m' hm'
    · rw [Function.update_of_ne hh] at hm'
      exact ht h' m' hm'
  · exact ht h' m' hm'

theorem HandlersOf.addMiss {t : Handlers} (ht : HandlersOf cache hash t) {m : DiskMissHandler}
    (hm : m.Of cache hash) : HandlersOf cache hash (t.addMiss m) := by
  intro h' m' hm'
  unfold Handlers.addMiss at hm'
  simp only at hm'
  by_cases hh : h' = t.next_miss
  · rw [hh, Function.update_self, Option.some.injEq] at hm'
    exact hm' ▸ hm
  · rw [Function.update_of_ne hh] at hm'
    exact ht h' m' hm'

section
variable {N : Type} {next : N → (e : Io) → e.Reply → N} {n : N}

/-- A write leaves a handler of the same key. -/
theorem write_body_keeps {m : DiskMissHandler} (hm : m.Of cache hash) (data : Bytes)
    (is_eof : Bool) : (m.write_body data is_eof).Obeys (fun _ => OfKey cache hash) next
      (fun r _ => r.2.Of cache hash) n := by
  obtain ⟨name, hname, htmp⟩ := hm.tmp_path
  have hlonger : ∀ k, DiskMissHandler.Of cache hash { m with tmp_bytes_written := k } :=
    fun _ => ⟨hm.dir, hm.body_path, hm.meta_path, hm.hdr_path, hm.tmp_path⟩
  refine ⟨⟨name, hname, htmp⟩, fun r => ?_⟩
  cases r with
  | error e => exact hm
  | ok f =>
    refine ⟨trivial, fun r => ?_⟩
    cases r with
    | error e => exact hm
    | ok _ =>
      cases is_eof with
      | false => exact hlonger _
      | true => exact ⟨trivial, fun _ => hlonger _⟩

theorem read_to_end_of_key (k : Nat) (hit : DiskHitHandler) :
    (read_to_end k hit).Calls (OfKey cache hash) := by
  induction k generalizing hit with
  | zero => exact calls_pure _
  | succ k ih =>
    apply calls_bind (read_body_of_key hit)
    intro r
    obtain ⟨r, hit⟩ := r
    cases r with
    | error e => exact calls_pure _
    | ok r =>
      cases r with
      | none => exact calls_pure _
      | some b =>
        apply calls_bind (ih hit)
        intro r
        obtain ⟨r, hit⟩ := r
        cases r <;> exact calls_pure _

/-- An operation on a key keeps to the paths of the key, and its handlers stay of the key. -/
theorem program_of_key {t : Handlers} (ht : HandlersOf cache hash t) {o : Op K M}
    (ho : Op.On hash o) {p : Prog (Reply M × Handlers)}
    (hp : program (disk_storage cache) t o = some p) :
    p.Obeys (fun _ => OfKey cache hash) next (fun r _ => HandlersOf cache hash r.2) n := by
  cases o with
  | lookup key =>
    obtain rfl := ho
    cases hp
    rw [obeys_bind]
    refine obeys_mono (obeys_of_calls (lookup_of_key key) n) fun r n' _ => ?_
    cases r with
    | error e => exact ht
    | ok r =>
      cases r with
      | none => exact ht
      | some hit => exact ht
  | get_miss_handler key cache_meta =>
    obtain rfl := ho
    cases hp
    rw [obeys_bind]
    refine obeys_mono (get_miss_handler_of_key key cache_meta n) fun r n' hr => ?_
    cases r with
    | error e => exact ht
    | ok m => exact ht.addMiss (hr m rfl)
  | write_body h data is_eof =>
    obtain ⟨m, hm, rfl⟩ := Option.map_eq_some_iff.mp hp
    rw [obeys_bind]
    refine obeys_mono (write_body_keeps (ht h m hm) data is_eof) fun r n' hr => ?_
    refine ht.setMiss h fun m' hm' => ?_
    cases hm'
    exact hr
  | finish h =>
    obtain ⟨m, hm, rfl⟩ := Option.map_eq_some_iff.mp hp
    rw [obeys_bind]
    refine obeys_mono (obeys_of_calls (finish_of_key (ht h m hm)) n) fun r n' _ => ?_
    exact ht.setMiss h fun m' hm' => by cases hm'
  | drop_handler h =>
    obtain ⟨m, hm, rfl⟩ := Option.map_eq_some_iff.mp hp
    rw [obeys_bind]
    refine obeys_mono (obeys_of_calls (drop_of_key (ht h m hm)) n) fun r n' _ => ?_
    exact ht.setMiss h fun m' hm' => by cases hm'
  | purge key purge_type =>
    obtain rfl := ho
    cases hp
    rw [obeys_bind]
    exact obeys_mono (obeys_of_calls (purge_of_key key purge_type) n) fun r n' _ => ht
  | update_meta key cache_meta =>
    obtain rfl := ho
    cases hp
    rw [obeys_bind]
    exact obeys_mono (obeys_of_calls (update_meta_of_key key cache_meta) n) fun r n' _ => ht
  | read_to_end h =>
    obtain ⟨hit, _, rfl⟩ := Option.map_eq_some_iff.mp hp
    rw [obeys_bind]
    exact obeys_mono (obeys_of_calls (read_to_end_of_key _ hit) n) fun r n' _ => ht

theorem session_of_key {client : Client K M α} (hc : client.Calls (Op.On hash)) {t : Handlers}
    (ht : HandlersOf cache hash t) :
    (session cache client t).Obeys (fun _ => OfKey cache hash) next (fun _ _ => True) n := by
  induction client generalizing t n with
  | done a => trivial
  | call o k ih =>
    unfold session
    split
    · exact ih none (hc.2 none) ht
    · rename_i p hp
      rw [obeys_bind]
      refine obeys_mono (program_of_key ht hc.1 hp) fun r n' hr => ?_
      exact ih (some r.1) (hc.2 (some r.1)) hr

end

end

/-! ## Machines that look the same to a key -/

section
variable {cache : DiskCache} {hash hash' : CombinedHash}

/-- What one key touches does not stand in the directory of another. -/
theorem not_prefix_of_key {e : Io} {q : PathBuf} (hne : hash' ≠ hash)
    (he : OfKey cache hash' e) (hq : Touches e q) : ¬ cache.dir hash <+: q := by
  intro hp
  rcases touches_of_key he hq with h | ⟨n, rfl⟩
  · have hdir := (hp.trans h).eq_of_length (by rw [DiskCache.length_dir, DiskCache.length_dir])
    exact hne (DiskCache.dir_inj.mp hdir).symm
  · rcases List.prefix_concat_iff.mp hp with h | h
    · have hlen := congrArg List.length h
      simp only [DiskCache.length_dir, List.length_append, List.length_singleton] at hlen
      omega
    · have hdir := h.eq_of_length (by rw [DiskCache.length_dir, DiskCache.length_dir])
      exact hne (DiskCache.dir_inj.mp hdir).symm

/-- A call of a key puts no file anywhere but in the directory of the key, and takes none
away from elsewhere. -/
theorem file_answer_iff {e : Io} {c : Choice} {w : World} {q : PathBuf} {i : Nat}
    (he : OfKey cache hash e) (hq : ∀ n, q ≠ cache.entry hash n) :
    (answer e c w).2.tree.node q = some (.file i) ↔ w.tree.node q = some (.file i) := by
  by_cases htouch : Touches e q
  · rcases touches_of_key he htouch with hpre | ⟨n, hn⟩
    · have hstep := tree_answer e c w
      generalize (answer e c w).2.tree = t at hstep ⊢
      cases hstep with
      | same => rfl
      | mkdirs p => exact node_mkdirs_file
      | remove_dir p hd =>
        obtain rfl : q = p := htouch
        -- a directory was there, and now it may be gone
        rw [hd, node_remove]
        split
        · simp
        · rw [hd]
      | create p hf hc =>
        obtain ⟨n, _, hn⟩ := he
        exact absurd ((show q = p from htouch).trans hn) (hq n)
      | put p d d' hc =>
        rcases he with hn | hn
        · exact absurd ((show q = p from htouch).trans hn) (hq _)
        · exact absurd ((show q = p from htouch).trans hn) (hq _)
      | move p p' i hi hc =>
        obtain ⟨⟨n, _, hn⟩, hn'⟩ := he
        rcases htouch with h | h
        · exact absurd (h.trans hn) (hq n)
        · exact absurd (h.trans hn') (hq _)
      | remove_file p i hi =>
        obtain ⟨n, hn⟩ := he
        exact absurd ((show q = p from htouch).trans hn) (hq n)
      | append f d d' => exact absurd htouch id
      | copy_some f g d => exact absurd htouch id
      | copy_rest f g d => exact absurd htouch id
    · exact absurd hn (hq n)
  · rw [(answer_leaves e c w).node q htouch]

theorem file_respond_iff {e : Nat × Io} {c : Choice} {s : Site} {q : PathBuf} {i : Nat}
    (he : OfKey cache hash e.2) (hq : ∀ n, q ≠ cache.entry hash n) :
    (respond e c s).2.tree.node q = some (.file i) ↔ s.tree.node q = some (.file i) := by
  rcases respond_cases e c s with h | ⟨_, h⟩
  · rw [h]
  · rw [h]
    exact file_answer_iff he hq

/-- A call by a number that is not open gets the same reply everywhere. -/
theorem answer_refused_reply {e : Io} {n : Nat} (h : ¬ ∀ f ∈ handles e, f < n) (c : Choice)
    (w w' : World) : (answer e { c with fault := some ⟨badFile, none⟩ } w).1 =
      (answer e { c with fault := some ⟨badFile, none⟩ } w').1 := by
  cases e
  case file_len => rfl
  case read_file => rfl
  case seek_file => rfl
  case write_all => rfl
  case flush => rfl
  case copy_some => rfl
  case copy_rest => rfl
  all_goals exact absurd (fun f hf => by cases hf) h

/-- Two machines that look the same from the directory of a key on, and to the sessions of
the key. No other session has any of its files. -/
structure SiteAlike (cache : DiskCache) (hash : CombinedHash) (own : Nat → Option CombinedHash)
    (r : Pairing) (s s' : Site) : Prop where
  tree : s.tree.Alike (cache.dir hash) r s'.tree
  opened : ∀ i, own i = some hash → (s'.desks i).opened = (s.desks i).opened
  files : ∀ i, own i = some hash → ∀ f, f < (s.desks i).opened →
    ∃ j, r ((s.desks i).files f).ino = some j ∧
      (s'.desks i).files f = ⟨j, ((s.desks i).files f).pos⟩
  pid : s'.pid = s.pid
  apart : ∀ i j, r i = some j →
    s.Apart {k | own k ≠ some hash} {q | ¬ cache.dir hash <+: q} i

variable {own : Nat → Option CombinedHash} {r : Pairing} {s s' : Site} {e : Nat × Io} {c : Choice}

theorem SiteAlike.world {i : Nat} (h : SiteAlike cache hash own r s s') (hi : own i = some hash) :
    WorldAlike (cache.dir hash) r (s.world i) (s'.world i) where
  tree := h.tree
  opened := h.opened i hi
  files := h.files i hi
  pid := h.pid

/-- A call of another key leaves the two machines alike. -/
theorem SiteAlike.hidden (h : SiteAlike cache hash own r s s') (hown : own e.1 ≠ some hash)
    (hne : hash' ≠ hash) (he : OfKey cache hash' e.2) :
    SiteAlike cache hash own r (respond e c s).2 s' := by
  have hout : ∀ q, Touches e.2 q → ¬ cache.dir hash <+: q := fun q => not_prefix_of_key hne he
  have hkeep : ∀ i j, r i = some j → (respond e c s).2.tree.data i = s.tree.data i ∧
      (respond e c s).2.Apart {k | own k ≠ some hash} {q | ¬ cache.dir hash <+: q} i := by
    intro i j hij
    exact (h.apart i j hij).respond hown hout
  have hdesk : ∀ i, own i = some hash → (respond e c s).2.desks i = s.desks i := by
    intro i hi
    apply desks_respond_of_ne
    rintro rfl
    exact hown hi
  refine ⟨⟨?_, ?_, ?_, ?_, h.tree.inj⟩, ?_, ?_, ?_, fun i j hij => (hkeep i j hij).2⟩
  · intro p hp
    rw [node_respond fun ht => hout p ht hp]
    exact h.tree.node p hp
  · intro q hq
    have hno : ∀ n, q ≠ cache.entry hash' n := by
      rintro n rfl
      have hlen := hq.length_le
      simp only [DiskCache.entry, List.length_append, DiskCache.length_dir,
        List.length_singleton] at hlen
      omega
    simp only [file_respond_iff he hno]
    exact h.tree.above q hq
  · intro i j hij
    exact ⟨(hkeep i j hij).2.below, (h.tree.below i j hij).2⟩
  · intro i j hij
    rw [(hkeep i j hij).1]
    exact h.tree.data i j hij
  · intro i hi
    rw [hdesk i hi]
    exact h.opened i hi
  · intro i hi
    rw [hdesk i hi]
    exact h.files i hi
  · rw [pid_respond]
    exact h.pid

/-- A call of the key gets the same reply on both machines, and leaves them alike. -/
theorem SiteAlike.same (h : SiteAlike cache hash own r s s') (hk : s.Known)
    (hown : own e.1 = some hash) (he : OfKey cache hash e.2) :
    (respond e c s').1 = (respond e c s).1 ∧
      ∃ r', SiteAlike cache hash own r' (respond e c s).2 (respond e c s').2 := by
  have hbound : bound e.2 (s'.desks e.1).opened c = bound e.2 (s.desks e.1).opened c := by
    rw [h.opened e.1 hown]
  by_cases hopen : ∀ f ∈ handles e.2, f < (s.desks e.1).opened
  · have hchoice : bound e.2 (s.desks e.1).opened c = c := if_pos hopen
    obtain ⟨hreply, r', hext, halike⟩ := answer_matches (c := c) (h.world hown) he hopen
    have hsite : respond e c s =
        ((answer e.2 c (s.world e.1)).1, s.put e.1 (answer e.2 c (s.world e.1)).2) := by
      simp only [respond, hchoice]
    have hsite' : respond e c s' =
        ((answer e.2 c (s'.world e.1)).1, s'.put e.1 (answer e.2 c (s'.world e.1)).2) := by
      simp only [respond, hbound, hchoice]
    have hknown := hk.respond (e := e) (c := c)
    have hl := answer_leaves e.2 c (s.world e.1)
    rw [hsite, hsite'] at *
    refine ⟨hreply, r', halike.tree, ?_, ?_, halike.pid, ?_⟩
    · intro i hi
      by_cases hie : i = e.1
      · rw [hie, Site.desks_put_self, Site.desks_put_self]
        exact halike.opened
      · rw [Site.desks_put_of_ne _ _ _ hie, Site.desks_put_of_ne _ _ _ hie]
        exact h.opened i hi
    · intro i hi
      by_cases hie : i = e.1
      · rw [hie, Site.desks_put_self, Site.desks_put_self]
        exact halike.files
      · rw [Site.desks_put_of_ne _ _ _ hie, Site.desks_put_of_ne _ _ _ hie]
        intro f hf
        obtain ⟨j, hj, hfile⟩ := h.files i hi f hf
        exact ⟨j, hext.keeps _ _ hj, hfile⟩
    · intro i j hij
      refine ⟨(halike.tree.below i j hij).1, ?_, ?_⟩
      · intro q hq hn
        have hno : ∀ n, q ≠ cache.entry hash n := by
          rintro n rfl
          exact hq (List.prefix_append _ _)
        have hbefore := (file_answer_iff he hno).mp hn
        rcases hext.fresh i j hij with hold | hge
        · exact (h.apart i j hold).paths q hq hbefore
        · exact absurd (s.tree.sound.below q i hbefore) (Nat.not_lt.mpr hge)
      · intro k hk' f hf
        have hke : k ≠ e.1 := by
          rintro rfl
          exact hk' hown
        rw [Site.desks_put_of_ne _ _ _ hke] at hf ⊢
        rcases hext.fresh i j hij with hold | hge
        · exact (h.apart i j hold).desks k hk' f hf
        · have hlt := hk k f hf
          intro heq
          rw [heq] at hlt
          exact absurd hlt (Nat.not_lt.mpr hge)
  · have hchoice : bound e.2 (s.desks e.1).opened c = { c with fault := some ⟨badFile, none⟩ } :=
      if_neg hopen
    have hw := answer_refused hopen c (s.world e.1)
    have hw' := answer_refused hopen c (s'.world e.1)
    have hreply := answer_refused_reply hopen c (s'.world e.1) (s.world e.1)
    unfold respond
    simp only [hbound, hchoice, hw, hw', put_world]
    exact ⟨hreply, r, h⟩

/-- A machine on which nobody has a file open looks the same as itself. -/
theorem siteAlike_start (cache : DiskCache) (hash : CombinedHash)
    (own : Nat → Option CombinedHash) (tree : FileTree (List Char) UInt8)
    (metrics : CacheMetrics) (pid : Nat) :
    ∃ r, SiteAlike cache hash own r (.start tree metrics pid) (.start tree metrics pid) := by
  classical
  have hr : ∀ i j, (fun i => if ∃ p, cache.dir hash <+: p ∧ tree.node p = some (.file i)
      then some i else none) i = some j →
      i = j ∧ ∃ p, cache.dir hash <+: p ∧ tree.node p = some (.file i) := by
    intro i j hij
    simp only at hij
    split at hij
    · rename_i hp
      cases hij
      exact ⟨rfl, hp⟩
    · cases hij
  refine ⟨fun i => if ∃ p, cache.dir hash <+: p ∧ tree.node p = some (.file i)
      then some i else none, ⟨?_, fun _ _ => Iff.rfl, ?_, ?_, ?_⟩, fun _ _ => rfl, ?_, rfl, ?_⟩
  · intro p hp
    simp only [Site.start]
    cases hn : tree.node p with
    | none => exact .none
    | some n =>
      cases n with
      | dir => exact .dir
      | file i => exact .file (if_pos ⟨p, hp, hn⟩)
  · intro i j hij
    obtain ⟨rfl, p, _, hn⟩ := hr i j hij
    have hlt := tree.sound.below p i hn
    exact ⟨hlt, hlt⟩
  · intro i j hij
    obtain ⟨rfl, _⟩ := hr i j hij
    rfl
  · intro i i' j hij hij'
    exact (hr i j hij).1.trans (hr i' j hij').1.symm
  · intro i _ f hf
    exact absurd hf (Nat.not_lt_zero f)
  · intro i j hij
    obtain ⟨_, p, hp, hn⟩ := hr i j hij
    refine ⟨tree.sound.below p i hn, ?_, ?_⟩
    · intro q hq hq'
      rw [tree.sound.single q p i hq' hn] at hq
      exact hq hp
    · intro k _ f hf
      exact absurd hf (Nat.not_lt_zero f)

end

/-! ## Clients of many keys -/

section
variable {K M α : Type} [CacheHashKey K] [CacheMeta M]

/-- A client and its key. All operations of the client are on the key. -/
structure KeyClient (K M α : Type) [CacheHashKey K] where
  hash : CombinedHash
  ops : Client K M α
  keeps : ops.Calls (Op.On hash)

/-- A call of a session, and what it got. -/
abbrev Answered := (e : Nat × Io) × e.2.Reply

/-- The sessions of clients. The history keeps all calls with what they got. -/
def client_system (K M α : Type) [CacheHashKey K] [CacheMeta M] (cache : DiskCache) :
    System (Nat × Io) (fun e => e.2.Reply) Choice Site α Nat (List Answered)
      (Nat × KeyClient K M α) where
  env := respond
  start t := ((session cache t.2.ops .empty : Prog α).sent (fun e => (t.1, e)), t.1)
  next i _ _ := i
  record _ _ e r _ _ h := h ++ [⟨e, r⟩]

abbrev ClientPool (α : Type) := Pool (Nat × Io) (fun e => e.2.Reply) α Nat Site (List Answered)

/-- Nothing has been asked yet. -/
def opening (cache : DiskCache) (clients : List (KeyClient K M α)) (s : Site) : ClientPool α :=
  ⟨clients.mapIdx fun i c => (client_system K M α cache).start (i, c), s, []⟩

/-- The key of a session. -/
def key_of (clients : List (KeyClient K M α)) (i : Nat) : Option CombinedHash :=
  clients[i]?.map KeyClient.hash

/-- The calls that a session of key `k` may make. -/
def Owned (cache : DiskCache) (clients : List (KeyClient K M α)) (i : Nat) (e : Nat × Io) : Prop :=
  e.1 = i ∧ ∃ k, key_of clients i = some k ∧ OfKey cache k e.2

/-- The machines look the same to a key, and so do the histories. -/
def RunAlike (cache : DiskCache) (hash : CombinedHash) (own : Nat → Option CombinedHash)
    (x x' : Site × List Answered) : Prop :=
  x.1.Known ∧ (∃ r, SiteAlike cache hash own r x.1 x'.1) ∧
    x'.2 = x.2.filter fun a => own a.1.1 = some hash

variable {cache : DiskCache} {hash : CombinedHash} {clients : List (KeyClient K M α)}

theorem unwinding : (client_system K M α cache).Unwinding (Owned cache clients)
    (fun i => key_of clients i = some hash) (RunAlike cache hash (key_of clients)) where
  next _ _ _ := rfl
  hidden i n e c s s' h h' ha hn hsim := by
    obtain ⟨rfl, k, hk, he⟩ := ha
    obtain ⟨hknown, ⟨r, hr⟩, hh⟩ := hsim
    dsimp only at hh
    have hown : key_of clients e.1 ≠ some hash := of_decide_eq_false hn
    have hne : k ≠ hash := by
      rintro rfl
      exact hown hk
    refine ⟨hknown.respond, ⟨r, hr.hidden hown hne he⟩, ?_⟩
    simp only [client_system, List.filter_append]
    rw [hh, List.filter_singleton]
    simp [hown]
  same i n e c s s' h h' ha hn hsim := by
    obtain ⟨rfl, k, hk, he⟩ := ha
    obtain ⟨hknown, ⟨r, hr⟩, hh⟩ := hsim
    dsimp only at hh
    have hown : key_of clients e.1 = some hash := of_decide_eq_true hn
    obtain rfl : k = hash := by
      rw [hk] at hown
      exact Option.some.inj hown
    obtain ⟨hreply, r', hr'⟩ := hr.same (c := c) hknown hown he
    refine ⟨hreply, hknown.respond, ⟨r', hr'⟩, ?_⟩
    dsimp only at hreply
    simp only [client_system, List.filter_append]
    rw [hh, List.filter_singleton]
    simp [hown, hreply]

theorem opening_getElem? (s : Site) (i : Nat) : (opening cache clients s).threads[i]? =
    clients[i]?.map fun c => (client_system K M α cache).start (i, c) := by
  simp [opening]

theorem opening_obedient (cache : DiskCache) (clients : List (KeyClient K M α)) (s : Site) :
    (client_system K M α cache).Obedient (Owned cache clients) (fun _ _ => True)
      (opening cache clients s) := by
  intro x hx
  obtain ⟨i, hi⟩ := List.mem_iff_getElem?.mp hx
  rw [opening_getElem?, Option.map_eq_some_iff] at hi
  obtain ⟨c, hc, rfl⟩ := hi
  have hkey : key_of clients i = some c.hash := by simp [key_of, hc]
  simp only [client_system, obeys_sent]
  have hsession : (session cache c.ops .empty).Obeys (fun _ => OfKey cache c.hash)
      (fun (n : Nat) _ _ => n) (fun _ _ => True) i :=
    session_of_key c.keeps fun h m hm => by cases hm
  exact obeys_mono (obeys_fixed hsession (fun e he => ⟨rfl, c.hash, hkey, he⟩)
    (fun _ _ => rfl)) fun _ _ _ => trivial

theorem shows_opening (s : Site) (i : Nat) :
    (opening cache clients s).shows (fun i => key_of clients i = some hash) i =
      decide (key_of clients i = some hash) := by
  simp only [Pool.shows, Pool.notes, List.getElem?_map, opening_getElem?]
  cases hc : clients[i]? with
  | none => simp [key_of, hc]
  | some c => simp [client_system]

/-- Whatever the clients of other keys do, and whenever they do it, the clients of a key make
the same calls, get the same replies and end with the same results as without them, and in
the directory of the key stands the same. -/
theorem other_keys_change_nothing (cache : DiskCache) (clients : List (KeyClient K M α))
    (tree : FileTree (List Char) UInt8) (metrics : CacheMetrics) (pid : Nat) (hash : CombinedHash)
    (evs : List (Nat × Choice)) (p : ClientPool α)
    (hr : (client_system K M α cache).schedule
      (opening cache clients (.start tree metrics pid)) evs = some p) :
    ∃ p', (client_system K M α cache).schedule (opening cache clients (.start tree metrics pid))
        (evs.filter fun x => key_of clients x.1 = some hash) = some p' ∧
      (∀ i, key_of clients i = some hash → p'.threads[i]? = p.threads[i]?) ∧
      p'.history = p.history.filter (fun a => key_of clients a.1.1 = some hash) ∧
      ∀ q, cache.dir hash <+: q → p'.state.tree.view q = p.state.tree.view q := by
  obtain ⟨r, hstart⟩ := siteAlike_start cache hash (key_of clients) tree metrics pid
  have hknown : (Site.start tree metrics pid).Known := fun j f hf => absurd hf (Nat.not_lt_zero f)
  obtain ⟨p', hrun, hsame, ⟨_, ⟨r', halike⟩, hhist⟩, hshows⟩ := unwinding.run
    (opening_obedient cache clients (.start tree metrics pid))
    (SameFor.refl _ _) ⟨hknown, ⟨r, hstart⟩, rfl⟩ hr
  simp only [shows_opening] at hrun hshows
  refine ⟨p', hrun, ?_, hhist, fun q hq => halike.tree.view hq⟩
  intro i hi
  apply hsame.threads i
  rw [hshows i]
  exact decide_eq_true hi

end

/-! ## Two keys with the same prefixes -/

def first_hash : CombinedHash := ⟨"00ff0".toList, by decide, by decide⟩
def second_hash : CombinedHash := ⟨"00ff1".toList, by decide, by decide⟩

abbrev SmallClient := KeyClient CombinedHash operations.Note (Option (Reply operations.Note))

/-- Purges the first key. -/
def purger : SmallClient where
  hash := first_hash
  ops := .call (.purge first_hash .Invalidation) .done
  keeps := ⟨rfl, fun _ => trivial⟩

/-- Fills the second key. -/
def filler : SmallClient where
  hash := second_hash
  ops := .call (.get_miss_handler second_hash ⟨[7]⟩) fun _ =>
    .call (.write_body 0 [1, 2] true) fun _ => .call (.finish 0) .done
  keeps := ⟨rfl, fun _ => ⟨trivial, fun _ => ⟨trivial, fun _ => trivial⟩⟩⟩

/-- The purge comes when the miss has made its directory, and none of its files. -/
def purge_amid : List (Nat × Choice) :=
  List.replicate 4 (1, plain) ++ List.replicate 6 (0, plain) ++ List.replicate 12 (1, plain)

theorem a_purge_amid_a_miss_of_another_key_changes_nothing : ∃ p p',
    (client_system CombinedHash operations.Note _ small_cache).schedule
      (opening small_cache [purger, filler] (.start (.empty _ _) (.new 0) 1)) purge_amid = some p ∧
    (client_system CombinedHash operations.Note _ small_cache).schedule
      (opening small_cache [purger, filler] (.start (.empty _ _) (.new 0) 1))
      (purge_amid.filter fun x => key_of [purger, filler] x.1 = some second_hash) = some p' ∧
    (∀ i, key_of [purger, filler] i = some second_hash → p'.threads[i]? = p.threads[i]?) ∧
    p'.history = p.history.filter (fun a => key_of [purger, filler] a.1.1 = some second_hash) ∧
    ∀ q, small_cache.dir second_hash <+: q → p'.state.tree.view q = p.state.tree.view q := by
  obtain ⟨p, hp⟩ := Option.isSome_iff_exists.mp (by decide +kernel :
    ((client_system CombinedHash operations.Note _ small_cache).schedule
      (opening small_cache [purger, filler] (.start (.empty _ _) (.new 0) 1)) purge_amid).isSome)
  obtain ⟨p', h⟩ := other_keys_change_nothing small_cache [purger, filler] (.empty _ _) (.new 0) 1
    second_hash purge_amid p hp
  exact ⟨p, p', hp, h⟩

end edge_cdn_store.key_isolation
