-- One call of a task, seen from its key: from which phase to which it takes the
-- task, and what it leaves of the three files. No call fails here, so a file that
-- is not there is the only thing that can go wrong.
import EdgeCdnStore.Slots

open edge_cdn_store.programs edge_cdn_store.io
open edge_cdn_store.file_tree edge_cdn_store.file_tree.FileTree
open edge_cdn_store.disk_cache edge_cdn_store.tasks edge_cdn_store.slots

namespace edge_cdn_store.key_calls

/-- The stages of a finish but those of the manual transfer. -/
def steady : FinishStage → Bool
  | .transfer => false
  | .opened => false
  | .copying => false
  | _ => true

/-- A phase of a task of the key. A rename fails only where the temporary file is gone, and
then so does the manual transfer. -/
def InPlace (cache : DiskCache) (hash : CombinedHash) (w : World) : Phase → Prop
  | .finish m stage => m.Of cache hash ∧
      (steady stage = true ∨ (stage = .transfer ∧ w.tree.content m.tmp_path = none))
  | .idle => False
  | _ => True

/-- A call that takes a task of the key from one phase to another, and the three files after
it. A metadata file that cannot be written has no directory, and then the key has no files. -/
inductive KeyCall (cache : DiskCache) (hash : CombinedHash) (e : Io) (w w' : World) :
    Phase → Phase → Slot → Prop
  | stays (x : Phase) : KeyCall cache hash e w w' x x (slot_of cache hash w)
  -- finish
  | no_tmp (m : DiskMissHandler) (he : e = .rename m.tmp_path m.body_path)
      (h : w.tree.content m.tmp_path = none) :
      KeyCall cache hash e w w' (.finish m .before) (.finish m .transfer) (slot_of cache hash w)
  | gives_up (m : DiskMissHandler) :
      KeyCall cache hash e w w' (.finish m .transfer) (.finish m .ended) (slot_of cache hash w)
  | publish (m : DiskMissHandler) (i : Nat) (he : e = .rename m.tmp_path m.body_path)
      (h : w.tree.node m.tmp_path = some (.file i)) :
      KeyCall cache hash e w w' (.finish m .before) (.finish m .placed)
        { slot_of cache hash w with body := some i }
  | finish_meta (m : DiskMissHandler) :
      KeyCall cache hash e w w' (.finish m .placed) (.finish m .meta_written)
        { slot_of cache hash w with cache_meta := some m.meta_internal }
  | finish_no_meta (m : DiskMissHandler) (h : slot_of cache hash w = ⟨none, none, none⟩) :
      KeyCall cache hash e w w' (.finish m .placed) (.finish m .ended) (slot_of cache hash w)
  | finish_hdr (m : DiskMissHandler) :
      KeyCall cache hash e w w' (.finish m .meta_written) (.finish m .counting)
        { slot_of cache hash w with hdr := some m.meta_header }
  | finish_no_hdr (m : DiskMissHandler) (h : slot_of cache hash w = ⟨none, none, none⟩) :
      KeyCall cache hash e w w' (.finish m .meta_written) (.finish m .ended) (slot_of cache hash w)
  | counted (m : DiskMissHandler) :
      KeyCall cache hash e w w' (.finish m .counting) (.finish m .ended) (slot_of cache hash w)
  -- purge
  | measured (len len' : Nat) :
      KeyCall cache hash e w w' (.purge (.before len)) (.purge (.before len')) (slot_of cache hash w)
  | purge_body (len : Nat) : KeyCall cache hash e w w' (.purge (.before len)) (.purge (.paying len))
        { slot_of cache hash w with body := none }
  | purge_no_body (len : Nat) : KeyCall cache hash e w w' (.purge (.before len)) (.purge .body_gone)
        { slot_of cache hash w with body := none }
  | paid (len : Nat) :
      KeyCall cache hash e w w' (.purge (.paying len)) (.purge .body_gone) (slot_of cache hash w)
  | purge_meta : KeyCall cache hash e w w' (.purge .body_gone) (.purge .meta_gone)
        { slot_of cache hash w with cache_meta := none }
  | purge_hdr : KeyCall cache hash e w w' (.purge .meta_gone) (.purge .ended)
        { slot_of cache hash w with hdr := none }
  -- update_meta
  | found (mi mh : Bytes) (h : (slot_of cache hash w).body.isSome) :
      KeyCall cache hash e w w' (.update_meta mi mh .before) (.update_meta mi mh .checked)
        (slot_of cache hash w)
  | not_found (mi mh : Bytes) :
      KeyCall cache hash e w w' (.update_meta mi mh .before) (.update_meta mi mh .ended)
        (slot_of cache hash w)
  | update_meta (mi mh : Bytes) (he : e = .write (cache.meta_part hash) mi) :
      KeyCall cache hash e w w' (.update_meta mi mh .checked) (.update_meta mi mh .meta_written)
        { slot_of cache hash w with cache_meta := some mi }
  | update_no_meta (mi mh : Bytes) (h : slot_of cache hash w = ⟨none, none, none⟩) :
      KeyCall cache hash e w w' (.update_meta mi mh .checked) (.update_meta mi mh .ended)
        (slot_of cache hash w)
  | update_hdr (mi mh : Bytes) :
      KeyCall cache hash e w w' (.update_meta mi mh .meta_written) (.update_meta mi mh .ended)
        { slot_of cache hash w with hdr := some mh }
  | update_no_hdr (mi mh : Bytes) (h : slot_of cache hash w = ⟨none, none, none⟩) :
      KeyCall cache hash e w w' (.update_meta mi mh .meta_written) (.update_meta mi mh .ended)
        (slot_of cache hash w)
  -- lookup
  | read_meta (k : Nat) (mi mh : Option Bytes) (f : Option Nat)
      (he : e = .read (cache.meta_part hash)) :
      KeyCall cache hash e w w' (.lookup k mi mh f)
        (.lookup (k + 1) (slot_of cache hash w).cache_meta mh f) (slot_of cache hash w)
  | read_hdr (k : Nat) (mi mh : Option Bytes) (f : Option Nat)
      (he : e = .read (cache.hdr hash)) :
      KeyCall cache hash e w w' (.lookup k mi mh f)
        (.lookup (k + 1) mi (slot_of cache hash w).hdr f) (slot_of cache hash w)
  | open_body (k i : Nat) (mi mh : Option Bytes) (f : Option Nat)
      (h : (slot_of cache hash w).body = some i) (hlt : w.opened < w'.opened)
      (hf : (w'.files w.opened).ino = i) :
      KeyCall cache hash e w w' (.lookup k mi mh f) (.lookup (k + 1) mi mh (some w.opened))
        (slot_of cache hash w)
  | open_no_body (k : Nat) (mi mh : Option Bytes) (f : Option Nat) :
      KeyCall cache hash e w w' (.lookup k mi mh f) (.lookup (k + 1) mi mh none)
        (slot_of cache hash w)

variable {cache : DiskCache} {hash : CombinedHash} {w w' : World} {c : Choice}
  {m : DiskMissHandler} {e : Io} {x y : Phase} {s : Slot}

/-- A call and its reply, with what they do to the key. -/
def Does (cache : DiskCache) (hash : CombinedHash) (w : World) (n : TaskNote) (e : Io)
    (r : e.Reply × World) : Prop :=
  ∃ s, KeyCall cache hash e w r.2 n.phase (n.next cache e r.1).phase s ∧ Moves cache hash w r.2 s

/-- A call that moves no file of the key, and no task. -/
theorem does_stays {n : TaskNote} (hw : cache.Laid w.tree) (hc : Calm c)
    (he : Quiet cache hash e) (hn : ∀ r, (n.next cache e r).phase = n.phase) :
    Does cache hash w n e (answer e c w) := by
  refine ⟨_, ?_, moves_quiet he hc hw⟩
  rw [hn]
  exact .stays _

theorem does_finish (hw : cache.Laid w.tree) (hc : Calm c) {stage : FinishStage}
    (hn : InPlace cache hash w (.finish m stage)) (ha : stage.allows m e) :
    Does cache hash w ⟨hash, .finish m stage⟩ e (answer e c w) := by
  obtain ⟨hm, hstage⟩ := hn
  obtain ⟨n, hn, htmp_path⟩ := hm.tmp_path
  cases stage with
  | before =>
    cases e
    case create_dir_all p =>
      obtain rfl : p = m.dir := ha
      refine does_stays hw hc ?_ fun _ => rfl
      change m.dir ∈ cache.dirs
      rw [hm.dir]
      exact DiskCache.dir_mem_dirs
    case rename p q =>
      obtain ⟨rfl, rfl⟩ : p = m.tmp_path ∧ q = m.body_path := ha
      rcases rename_of_handler hm hw hc with ⟨i, w', hi, h, hmoves⟩ | ⟨hnone, x, h⟩
      · rw [h]
        exact ⟨_, .publish m i rfl hi, hmoves⟩
      · rw [h]
        exact ⟨_, .no_tmp m rfl hnone, Moves.refl hw⟩
    all_goals exact absurd ha id
  | transfer =>
    cases e
    case open_file p =>
      obtain rfl : p = m.tmp_path := ha
      have habsent : w.tree.content m.tmp_path = none := by simpa [steady] using hstage
      obtain ⟨x, h⟩ := answer_open_absent hc habsent
      rw [h]
      exact ⟨_, .gives_up m, Moves.refl hw⟩
    all_goals exact absurd ha id
  | opened => simp [steady] at hstage
  | copying => simp [steady] at hstage
  | placed =>
    cases e
    case write p d =>
      obtain ⟨rfl, rfl⟩ : p = m.meta_path ∧ d = m.meta_internal := ha
      rw [hm.meta_path]
      rcases moves_write_meta hw hc m.meta_internal with ⟨w', h, hmoves⟩ | ⟨hs, x, h⟩
      · rw [h]
        exact ⟨_, .finish_meta m, hmoves⟩
      · rw [h]
        exact ⟨_, .finish_no_meta m hs, Moves.refl hw⟩
    all_goals exact absurd ha id
  | meta_written =>
    cases e
    case write p d =>
      obtain ⟨rfl, rfl⟩ : p = m.hdr_path ∧ d = m.meta_header := ha
      rw [hm.hdr_path]
      rcases moves_write_hdr hw hc m.meta_header with ⟨w', h, hmoves⟩ | ⟨hs, x, h⟩
      · rw [h]
        exact ⟨_, .finish_hdr m, hmoves⟩
      · rw [h]
        exact ⟨_, .finish_no_hdr m hs, Moves.refl hw⟩
    all_goals exact absurd ha id
  | counting =>
    cases e
    case inc_by k n => exact does_stays hw hc trivial fun _ => rfl
    case size_bytes_add k => exact ⟨_, .counted m, moves_quiet trivial hc hw⟩
    all_goals exact absurd ha id
  | ended =>
    cases e
    case remove_file p =>
      obtain rfl : p = m.tmp_path := ha
      exact does_stays hw hc ⟨n, hn, htmp_path⟩ fun _ => rfl
    all_goals exact absurd ha id

theorem does_purge (hw : cache.Laid w.tree) (hc : Calm c) {stage : PurgeStage}
    (ha : stage.allows cache hash e) :
    Does cache hash w ⟨hash, .purge stage⟩ e (answer e c w) := by
  cases stage with
  | before len =>
    cases e
    case inc_by k n => exact does_stays hw hc trivial fun _ => rfl
    case metadata p =>
      have hmoves : Moves cache hash w (answer (.metadata p) c w).2 (slot_of cache hash w) :=
        moves_quiet trivial hc hw
      refine ⟨_, ?_, hmoves⟩
      cases (answer (.metadata p) c w).1 with
      | ok len' => exact .measured len len'
      | error x => exact .measured len 0
    case remove_file p =>
      obtain rfl : p = cache.body hash := ha
      obtain ⟨r, w', h, hmoves⟩ := moves_remove_body hw hc
      rw [DiskCache.body_eq, h]
      refine ⟨_, ?_, hmoves⟩
      cases r with
      | ok _ => exact .purge_body len
      | error x => exact .purge_no_body len
    all_goals exact absurd ha id
  | paying len =>
    cases e
    case inc_by k n => exact does_stays hw hc trivial fun _ => rfl
    case size_bytes_sub k => exact ⟨_, .paid len, moves_quiet trivial hc hw⟩
    all_goals exact absurd ha id
  | body_gone =>
    cases e
    case remove_file p =>
      obtain rfl : p = cache.meta_part hash := ha
      obtain ⟨r, w', h, hmoves⟩ := moves_remove_meta hw hc
      rw [DiskCache.meta_part_eq, h]
      exact ⟨_, .purge_meta, hmoves⟩
    all_goals exact absurd ha id
  | meta_gone =>
    cases e
    case remove_file p =>
      obtain rfl : p = cache.hdr hash := ha
      obtain ⟨r, w', h, hmoves⟩ := moves_remove_hdr hw hc
      rw [DiskCache.hdr_eq, h]
      exact ⟨_, .purge_hdr, hmoves⟩
    all_goals exact absurd ha id
  | ended =>
    cases e
    case remove_dir p => exact does_stays hw hc trivial fun _ => rfl
    all_goals exact absurd ha id

theorem does_update_meta (hw : cache.Laid w.tree) (hc : Calm c) {mi mh : Bytes}
    {stage : UpdateStage} (ha : stage.allows cache hash mi mh e) :
    Does cache hash w ⟨hash, .update_meta mi mh stage⟩ e (answer e c w) := by
  cases stage with
  | before =>
    cases e
    case exists_path p =>
      obtain rfl : p = cache.body hash := ha
      rw [DiskCache.body_eq, answer_exists_body hw hc]
      refine ⟨_, ?_, Moves.refl hw⟩
      cases hb : (slot_of cache hash w).body.isSome with
      | true => exact .found mi mh hb
      | false => exact .not_found mi mh
    all_goals exact absurd ha id
  | checked =>
    cases e
    case write p d =>
      obtain ⟨rfl, rfl⟩ : p = cache.meta_part hash ∧ d = mi := ha
      rcases moves_write_meta hw hc d with ⟨w', h, hmoves⟩ | ⟨hs, x, h⟩
      all_goals rw [← DiskCache.meta_part_eq] at h
      · rw [h]
        exact ⟨_, .update_meta d mh rfl, hmoves⟩
      · rw [h]
        exact ⟨_, .update_no_meta d mh hs, Moves.refl hw⟩
    all_goals exact absurd ha id
  | meta_written =>
    cases e
    case write p d =>
      obtain ⟨rfl, rfl⟩ : p = cache.hdr hash ∧ d = mh := ha
      rw [DiskCache.hdr_eq]
      rcases moves_write_hdr hw hc d with ⟨w', h, hmoves⟩ | ⟨hs, x, h⟩
      · rw [h]
        exact ⟨_, .update_hdr mi d, hmoves⟩
      · rw [h]
        exact ⟨_, .update_no_hdr mi d hs, Moves.refl hw⟩
    all_goals exact absurd ha id
  | ended =>
    cases e
    case exists_path p => exact does_stays hw hc trivial fun _ => rfl
    all_goals exact absurd ha id

theorem does_lookup (hw : cache.Laid w.tree) (hc : Calm c) {k : Nat} {mi mh : Option Bytes}
    {f : Option Nat} (ha : lookup_allows cache hash e) :
    Does cache hash w ⟨hash, .lookup k mi mh f⟩ e (answer e c w) := by
  cases e
  case create_dir_all p =>
    obtain rfl : p = cache.root := ha
    exact does_stays hw hc (DiskCache.root_mem_dirs cache hash) fun _ => rfl
  case join_order => exact does_stays hw hc trivial fun _ => rfl
  case file_len g => exact does_stays hw hc trivial fun _ => rfl
  case inc_by j n => exact does_stays hw hc trivial fun _ => rfl
  case read p =>
    obtain ⟨r, h, hr⟩ := answer_read (w := w) hc p
    rw [h]
    refine ⟨_, ?_, Moves.refl hw⟩
    rcases ha with rfl | rfl
    · simp only [TaskNote.next, lookup_next, if_pos, hr]
      exact .read_meta k mi mh f rfl
    · have hne : cache.hdr hash ≠ cache.meta_part hash := DiskCache.entry_ne (by decide)
      simp only [TaskNote.next, lookup_next, if_neg hne, hr]
      exact .read_hdr k mi mh f rfl
  case open_file p =>
    obtain rfl : p = cache.body hash := ha
    rw [DiskCache.body_eq]
    rcases answer_open_body hw hc with ⟨i, hi, h⟩ | ⟨hnone, x, h⟩
    · rw [h]
      refine ⟨_, .open_body k i mi mh f hi (Nat.lt_succ_self _) ?_, Moves.openIno hw i⟩
      simp [World.openIno]
    · rw [h]
      exact ⟨_, .open_no_body k mi mh f, Moves.refl hw⟩
  all_goals exact absurd ha id

/-- Every call of a task of the key is one of these. -/
theorem key_call {n : TaskNote} (hw : cache.Laid w.tree) (hc : Calm c) (hhash : n.hash = hash)
    (hn : InPlace cache hash w n.phase) (ha : n.allows cache e) :
    Does cache hash w n e (answer e c w) := by
  obtain ⟨hash', phase⟩ := n
  obtain rfl : hash' = hash := hhash
  cases phase with
  | finish m stage => exact does_finish hw hc hn ha
  | purge stage => exact does_purge hw hc ha
  | update_meta mi mh stage => exact does_update_meta hw hc ha
  | lookup k mi mh f => exact does_lookup hw hc ha
  | idle => exact absurd hn id

/-- A phase stays in place while no temporary file comes up. -/
theorem InPlace.moves (h : InPlace cache hash w x) (hs : Moves cache hash w w' s) :
    InPlace cache hash w' x := by
  cases x with
  | finish m stage =>
    obtain ⟨hm, hstage⟩ := h
    refine ⟨hm, hstage.imp_right fun ⟨ht, hnone⟩ => ⟨ht, ?_⟩⟩
    obtain ⟨n, hn, htmp⟩ := hm.tmp_path
    rw [htmp] at hnone ⊢
    exact hs.no_tmp n hn hnone
  | purge stage => exact trivial
  | update_meta mi mh stage => exact trivial
  | lookup k mi mh f => exact trivial
  | idle => exact absurd h id

/-- Only a finish whose rename has failed depends on the world. -/
theorem InPlace.of_no_transfer (h : InPlace cache hash w x) (hx : ∀ m, x ≠ .finish m .transfer) :
    InPlace cache hash w' x := by
  cases x with
  | finish m stage =>
    obtain ⟨hm, hstage⟩ := h
    refine ⟨hm, hstage.imp_right fun ⟨ht, _⟩ => ?_⟩
    subst ht
    exact absurd rfl (hx m)
  | purge stage => exact trivial
  | update_meta mi mh stage => exact trivial
  | lookup k mi mh f => exact trivial
  | idle => exact absurd h id

/-- A call leaves its task in place. -/
theorem KeyCall.inPlace (h : KeyCall cache hash e w w' x y s) (hx : InPlace cache hash w x)
    (hs : Moves cache hash w w' s) : InPlace cache hash w' y := by
  cases h
  case stays => exact hx.moves hs
  case no_tmp m _ hnone =>
    refine ⟨hx.1, Or.inr ⟨rfl, ?_⟩⟩
    obtain ⟨n, hn, htmp⟩ := hx.1.tmp_path
    rw [htmp] at hnone ⊢
    exact hs.no_tmp n hn hnone
  case gives_up => exact ⟨hx.1, Or.inl rfl⟩
  case publish => exact ⟨hx.1, Or.inl rfl⟩
  case finish_meta => exact ⟨hx.1, Or.inl rfl⟩
  case finish_no_meta => exact ⟨hx.1, Or.inl rfl⟩
  case finish_hdr => exact ⟨hx.1, Or.inl rfl⟩
  case finish_no_hdr => exact ⟨hx.1, Or.inl rfl⟩
  case counted => exact ⟨hx.1, Or.inl rfl⟩
  all_goals exact trivial

theorem next_hash (n : TaskNote) (e : Io) (r : e.Reply) : (n.next cache e r).hash = n.hash := by
  obtain ⟨hash', phase⟩ := n
  cases phase <;> rfl

end edge_cdn_store.key_calls
