-- A miss among other tasks. Purges of its own key run at the same time, and nothing
-- locks them out, but they do not know its temporary file, and a directory with a
-- file in it is not removed. So a miss gets its body in place all the same.
import EdgeCdnStore.Holders
import EdgeCdnStore.FinishFaults

open edge_cdn_store.programs edge_cdn_store.programs.Program edge_cdn_store.io
open edge_cdn_store.file_tree edge_cdn_store.file_tree.FileTree
open edge_cdn_store.logger edge_cdn_store.disk_cache edge_cdn_store.pools edge_cdn_store.tasks
open edge_cdn_store.sites edge_cdn_store.held_files edge_cdn_store.holders edge_cdn_store.courses
open edge_cdn_store.operations (write_bodies Note small_cache small_hash small_handler
  small_handler_of)
open edge_cdn_store.finish_faults (rewriting rewriting_laid)

namespace edge_cdn_store.undisturbed_misses

/-! ## The miss -/

/-- The chunks of a miss, each with whether it is the last one. -/
abbrev Chunks := List (Bytes × Bool)

def Chunks.bytes (chunks : Chunks) : Bytes := (chunks.map Prod.fst).flatten

/-- What a miss gave: what its writes returned, and the finish where all were accepted. -/
abbrev Gave := Result Unit × Option (Result MissFinishType)

def miss (m : DiskMissHandler) (chunks : Chunks) : Prog Gave := do
  match ← write_bodies m chunks with
  | (.error e, m) =>
    m.drop
    return (.error e, none)
  | (.ok (), m) => return (.ok (), some (← m.finish))

/-- How far a miss has come: it writes, with what its file holds and the number it has open, or
its body is in place, and then whether it failed to write its metadata, or it is lost. -/
inductive Stage
  | writing (d : Bytes) (file : Option Nat)
  | placed (d : Bytes) (failed : Bool)
  | lost

def Stage.allows (m : DiskMissHandler) : Stage → Io → Prop
  | .writing _ _, .open_append p => p = m.tmp_path
  | .writing _ file, .write_all f _ => file = some f
  | .writing _ file, .flush f => file = some f
  | .writing _ _, .create_dir_all p => p = m.dir
  | .writing _ _, .rename p q => p = m.tmp_path ∧ q = m.body_path
  | .placed _ failed, .write p _ => failed = false ∧ (p = m.meta_path ∨ p = m.hdr_path)
  | .placed _ _, .inc_by _ _ => True
  | .placed _ _, .size_bytes_add _ => True
  | .placed _ _, .remove_file p => p = m.tmp_path
  | .lost, _ => True
  | _, _ => False

def Stage.next : Stage → (e : Io) → e.Reply → Stage
  | .writing d _, .open_append _, .ok f => .writing d (some f)
  | .writing _ _, .open_append _, .error _ => .lost
  | .writing d file, .write_all _ data, .ok _ => .writing (d ++ data) file
  | .writing _ _, .write_all _ _, .error _ => .lost
  | .writing d _, .rename _ _, .ok _ => .placed d false
  | .writing _ _, .rename _ _, .error _ => .lost
  | .placed d _, .write _ _, .error _ => .placed d true
  | stage, _, _ => stage

/-- What a finish gave, by how far it came: it created an object of `n` bytes, or it failed to
write its metadata. -/
def Finished (d : Bytes) (n : Nat) (r : Result MissFinishType) (stage : Stage) : Prop :=
  stage = .lost ∨ ∃ failed, stage = .placed d failed ∧ (failed = false → r = .ok (.Created n)) ∧
    (failed = true → ∃ e, r = .error e)

/-- What a miss gave: every chunk was accepted, and the finish went so far. -/
def Went (d : Bytes) (n : Nat) (gave : Gave) (stage : Stage) : Prop :=
  stage = .lost ∨ (gave.1 = .ok () ∧ ∃ r, gave.2 = some r ∧ Finished d n r stage)

section
variable {m : DiskMissHandler}

theorem lost_obeys {α : Type} {p : Prog α} {Q : α → Stage → Prop} (hQ : ∀ a, Q a .lost) :
    p.Obeys (Stage.allows m) Stage.next Q .lost := by
  induction p with
  | done a => exact hQ a
  | call e k ih => exact ⟨trivial, fun r => ih r⟩

/-- The handler after it has written so many bytes. -/
def written (m : DiskMissHandler) (n : Nat) : DiskMissHandler := { m with tmp_bytes_written := n }

theorem write_body_obeys (n : Nat) (d : Bytes) (file : Option Nat) (data : Bytes)
    (is_eof : Bool) : ((written m n).write_body data is_eof).Obeys (Stage.allows m) Stage.next
      (fun r stage => stage = .lost ∨ ∃ f, stage = .writing (d ++ data) (some f) ∧
        r = (.ok (), written m (n + data.length))) (.writing d file) := by
  simp only [DiskMissHandler.write_body, trace_fn_exit_with_err, e_explain, obeys_bind]
  refine (obeys_perform (Io.open_append _) _ _).mpr ⟨rfl, fun r => ?_⟩
  cases r with
  | error e => exact Or.inl rfl
  | ok f =>
    simp only [obeys_bind]
    refine (obeys_perform (Io.write_all f data) _ _).mpr ⟨rfl, fun r => ?_⟩
    cases r with
    | error e => exact Or.inl rfl
    | ok _ =>
      cases is_eof with
      | false => exact Or.inr ⟨f, rfl, rfl⟩
      | true =>
        simp only [if_true, obeys_bind]
        exact (obeys_perform (Io.flush f) _ _).mpr ⟨rfl, fun _ => Or.inr ⟨f, rfl, rfl⟩⟩

theorem write_bodies_obeys (chunks : Chunks) (n : Nat) (d : Bytes) (file : Option Nat) :
    (write_bodies (written m n) chunks).Obeys (Stage.allows m) Stage.next
      (fun r stage => stage = .lost ∨ ∃ file', stage = .writing (d ++ chunks.bytes) file' ∧
        r = (.ok (), written m (n + chunks.bytes.length))) (.writing d file) := by
  induction chunks generalizing n d file with
  | nil => exact Or.inr ⟨file, by simp [Chunks.bytes], by simp [Chunks.bytes]⟩
  | cons chunk chunks ih =>
    obtain ⟨data, is_eof⟩ := chunk
    have hbytes : Chunks.bytes ((data, is_eof) :: chunks) = data ++ Chunks.bytes chunks := by
      simp [Chunks.bytes]
    unfold write_bodies
    simp only [obeys_bind]
    refine obeys_mono (write_body_obeys n d file data is_eof) fun r stage hr => ?_
    rcases hr with rfl | ⟨f, rfl, rfl⟩
    · exact lost_obeys fun _ => Or.inl rfl
    · refine obeys_mono (ih (n + data.length) (d ++ data) (some f)) fun r stage hr => ?_
      rw [hbytes, ← List.append_assoc, List.length_append, ← Nat.add_assoc]
      exact hr

/-- The stage of a miss whose handler finishes. It is lost on each way but that of the rename. -/
def finish_stage (d : Bytes) (file : Option Nat) : Finishing → Stage
  | .begun => .writing d file
  | .based => .writing d file
  | .placed => .placed d false
  | .meta_written => .placed d false
  | .hdr_written => .placed d false
  | .inserted => .placed d false
  | .leaving made => .placed d (!made)
  | .left made => .placed d (!made)
  | _ => .lost

/-- From where its body is in place a finish only writes its metadata and counts. -/
theorem finish_obeys (n : Nat) (d : Bytes) (file : Option Nat) :
    (written m n).finish.Obeys (Stage.allows m) Stage.next (Finished d n) (.writing d file) := by
  apply obeys_beside (J := fun x stage => stage = .lost ∨ stage = finish_stage d file x)
    (finish_course (written m n)) (Or.inr rfl)
  · rintro x stage e hat ha
    by_cases hlost : stage = .lost
    · subst hlost
      exact ⟨trivial, fun r => Or.inl rfl⟩
    · obtain rfl := hat.resolve_left hlost
      cases x
      case begun =>
        obtain rfl := ha
        exact ⟨rfl, fun r => Or.inr rfl⟩
      case based =>
        obtain rfl := ha
        exact ⟨⟨rfl, rfl⟩, fun r => Or.inr (by cases r <;> rfl)⟩
      case placed =>
        obtain rfl := ha
        exact ⟨⟨rfl, Or.inl rfl⟩, fun r => Or.inr (by cases r <;> rfl)⟩
      case meta_written =>
        obtain rfl := ha
        exact ⟨⟨rfl, Or.inr rfl⟩, fun r => Or.inr (by cases r <;> rfl)⟩
      case hdr_written =>
        obtain rfl := ha
        exact ⟨trivial, fun r => Or.inr rfl⟩
      case inserted =>
        obtain rfl := ha
        exact ⟨trivial, fun r => Or.inr rfl⟩
      case leaving made =>
        obtain rfl := ha
        exact ⟨rfl, fun r => Or.inr rfl⟩
      case left made => exact absurd ha id
      all_goals exact absurd rfl hlost
  · rintro r x stage (⟨rfl, rfl⟩ | ⟨rfl, hr⟩) (h | rfl)
    · exact Or.inl h
    · exact Or.inr ⟨false, rfl, fun _ => rfl, fun h => by cases h⟩
    · exact Or.inl h
    · exact Or.inr ⟨true, rfl, fun h => (by cases h), fun _ => hr⟩

theorem miss_obeys (chunks : Chunks) (d : Bytes) :
    (miss m chunks).Obeys (Stage.allows m) Stage.next
      (Went (d ++ chunks.bytes) (m.tmp_bytes_written + chunks.bytes.length))
      (.writing d none) := by
  unfold miss
  simp only [obeys_bind]
  refine obeys_mono (write_bodies_obeys chunks m.tmp_bytes_written d none) fun r stage hr => ?_
  rcases hr with rfl | ⟨file, rfl, rfl⟩
  · exact lost_obeys fun _ => Or.inl rfl
  · simp only [obeys_bind]
    exact obeys_mono (finish_obeys _ _ file) fun r stage hr => Or.inr ⟨rfl, r, rfl, hr⟩

end

/-! ## The miss among the other tasks -/

/-- What is watched of a program: how far the miss has come, or what another task has. -/
inductive Watch
  | miss (stage : Stage)
  | other (n : Holder)

def Watch.allows (cache : DiskCache) (m : DiskMissHandler) : Watch → Io → Prop
  | .miss stage, e => stage.allows m e
  | .other n, e => n.allows cache e

def Watch.next : Watch → (e : Io) → e.Reply → Watch
  | .miss stage, e, r => .miss (stage.next e r)
  | .other n, e, r => .other (n.next e r)

/-- What was seen: the body as the miss put it in place, and whether the directory of the key was
removed. -/
structure Seen where
  body : Option Bytes
  removed : Bool
  deriving DecidableEq, Repr

def Seen.after (m : DiskMissHandler) (n : Watch) (e : Io) (r : e.Reply) (w : World) (seen : Seen) :
    Seen :=
  match n, e, r with
  | .miss _, .rename _ _, .ok _ => { seen with body := w.tree.content m.body_path }
  | .other _, .remove_dir p, .ok _ => { seen with removed := seen.removed || decide (p = m.dir) }
  | _, _, _ => seen

/-- How the files stand for a miss that has come so far. -/
def Stands (m : DiskMissHandler) (i : Nat) (w : World) (seen : Seen) : Stage → Prop
  | .writing d file => seen.removed = false ∧ FileAt m.tmp_path i d w ∧
      ∀ f, file = some f → f < w.opened ∧ (w.files f).ino = i
  | .placed d failed => seen.body = some d ∧
      (seen.removed = false → w.tree.node m.dir = some .dir) ∧
      (failed = true → seen.removed = true)
  | .lost => False

section
variable {cache : DiskCache} {hash : CombinedHash} {m : DiskMissHandler} {i : Nat} {d : Bytes}
  {w : World} {seen : Seen} {e : Io} {c : Choice}

theorem dir_ne_entry {hash' : CombinedHash} {x : List Char} :
    cache.dir hash ≠ cache.entry hash' x := by
  intro heq
  have hdirs : cache.entry hash' x ∈ cache.dirs := heq ▸ DiskCache.dir_mem_dirs
  exact DiskCache.entry_not_mem_dirs hdirs

/-- What stands in the directory of a key keeps the directory there. -/
theorem has_parent (h : FileAt m.tmp_path i d w) (hm : m.Of cache hash) (x : List Char) :
    w.tree.HasParent (cache.entry hash x) := by
  obtain ⟨n, _, htmp⟩ := hm.tmp_path
  have hnode := h.node
  rw [htmp] at hnode
  have hparent := (node_parent hnode DiskCache.entry_ne_nil).2
  rw [DiskCache.dropLast_entry] at hparent
  exact ⟨DiskCache.entry_ne_nil, by rw [DiskCache.dropLast_entry]; exact hparent⟩

/-- The file of the handler goes to where the body stands. -/
theorem rename_own (h : FileAt m.tmp_path i d w) (hm : m.Of cache hash)
    (hw : cache.Laid w.tree) (hc : Calm c) : ∃ w', answer (.rename m.tmp_path m.body_path) c w =
      (.ok (), w') ∧ w'.tree.content m.body_path = some d ∧ w'.tree.node m.dir = some .dir := by
  unfold Calm at hc
  obtain ⟨n, hn, htmp⟩ := hm.tmp_path
  have hcan : w.tree.CanMove m.tmp_path m.body_path := by
    rw [htmp, hm.body_path]
    exact ⟨hw.no_dir _ DiskCache.entry_mem_files, has_parent h hm _,
      DiskCache.entry_ne (hn.ne (by decide))⟩
  refine ⟨w.setTree (w.tree.move m.tmp_path m.body_path), ?_, ?_, ?_⟩
  · simp only [answer, Choice.guard, hc, h.node, if_pos hcan]
  · change (w.tree.move _ _).content _ = _
    rw [content_move h.node hcan, if_pos rfl, h.data]
  · change (w.tree.move _ _).node _ = _
    have hparent := (has_parent h hm "body".toList).2
    rw [DiskCache.dropLast_entry] at hparent
    rw [node_move h.node hcan, if_neg, if_neg, hm.dir, hparent]
    · rw [hm.dir, htmp]
      exact dir_ne_entry
    · rw [hm.dir, hm.body_path]
      exact dir_ne_entry

/-- The miss itself goes on as it should, where none of its own calls fails. -/
theorem stands_miss {stage : Stage} (hm : m.Of cache hash) (hw : cache.Laid w.tree)
    (h : Stands m i w seen stage) (ha : stage.allows m e) (hc : Calm c) :
    Stands m i (answer e c w).2 (seen.after m (.miss stage) e (answer e c w).1 (answer e c w).2)
      (stage.next e (answer e c w).1) := by
  have hfault : c.fault = none := hc
  cases stage with
  | lost => exact absurd h id
  | writing d file =>
    obtain ⟨hkept, htmp, hfile⟩ := h
    have hleaves := answer_leaves e c w
    cases e
    case open_append p =>
      obtain rfl : p = m.tmp_path := ha
      simp only [answer, Choice.guard, hfault, htmp.node]
      refine ⟨hkept, ⟨htmp.node, htmp.data⟩, fun f hf => ?_⟩
      cases hf
      exact ⟨Nat.lt_succ_self _, by simp [World.openIno]⟩
    case write_all f data =>
      obtain ⟨hlt, hino⟩ := hfile f ha
      simp only [answer, hfault]
      refine ⟨hkept, ⟨htmp.node, ?_⟩, hfile⟩
      simp only [World.append, World.setTree, hino, setData, Function.update_self, htmp.data]
    case flush f =>
      simp only [answer, Choice.guard, hfault]
      exact ⟨hkept, htmp, hfile⟩
    case create_dir_all p =>
      obtain rfl : p = m.dir := ha
      obtain ⟨n, hn, hpath⟩ := hm.tmp_path
      have hno : ¬ Touches (.create_dir_all m.dir) m.tmp_path := by
        intro hpre
        rw [hm.dir] at hpre
        have htemp : Temp cache m.tmp_path := ⟨hash, n, hn, hpath⟩
        exact not_temp_of_above hpre htemp
      refine ⟨hkept, htmp.stay hno fun f hf => absurd hf List.not_mem_nil, fun f hf => ?_⟩
      obtain ⟨hlt, hino⟩ := hfile f hf
      exact ⟨Nat.lt_of_lt_of_le hlt hleaves.opened_le, (hleaves.files f hlt).trans hino⟩
    case rename p q =>
      obtain ⟨rfl, rfl⟩ := ha
      obtain ⟨w', hanswer, hbody, hdir⟩ := rename_own htmp hm hw hc
      rw [hanswer]
      exact ⟨hbody, fun _ => hdir, fun h => by cases h⟩
    all_goals exact absurd ha id
  | placed d failed =>
    obtain ⟨hbody, hdir, hfailed⟩ := h
    have hstay : (∀ p, e ≠ .remove_dir p) → seen.removed = false →
        (answer e c w).2.tree.node m.dir = some .dir := fun he hr => dir_answer he (hdir hr)
    cases e
    case write p data =>
      obtain ⟨rfl, hp⟩ := ha
      have hwrite : ∃ x, p = cache.entry hash x := by
        rcases hp with rfl | rfl
        · exact ⟨_, hm.meta_path⟩
        · exact ⟨_, hm.hdr_path⟩
      obtain ⟨x, rfl⟩ := hwrite
      have hdir' := hstay fun p h => by cases h
      by_cases hcan : w.tree.CanCreate (cache.entry hash x)
      · simp only [answer, hfault, if_pos hcan] at hdir' ⊢
        exact ⟨hbody, hdir', fun h => by cases h⟩
      · simp only [answer, hfault, if_neg hcan] at hdir' ⊢
        refine ⟨hbody, hdir', fun _ => ?_⟩
        -- a file cannot be made where there is no directory
        by_contra hr
        have hthere := hdir (Bool.eq_false_iff.mpr hr)
        refine hcan ⟨hw.no_dir _ DiskCache.entry_mem_files, DiskCache.entry_ne_nil, ?_⟩
        rw [DiskCache.dropLast_entry, ← hm.dir]
        exact hthere
    case inc_by k n => exact ⟨hbody, hdir, hfailed⟩
    case size_bytes_add n => exact ⟨hbody, hdir, hfailed⟩
    case remove_file p => exact ⟨hbody, hstay fun p h => (by cases h), hfailed⟩
    all_goals exact absurd ha id

/-- A miss that is not lost keeps to the paths of its key. -/
theorem stage_of_key {stage : Stage} (hm : m.Of cache hash) (hlost : stage ≠ .lost)
    (ha : stage.allows m e) : OfKey cache hash e := by
  obtain ⟨n, hn, htmp⟩ := hm.tmp_path
  cases stage with
  | lost => exact absurd rfl hlost
  | writing d file =>
    cases e
    case open_append p =>
      obtain rfl : p = m.tmp_path := ha
      exact ⟨n, hn, htmp⟩
    case create_dir_all p =>
      obtain rfl : p = m.dir := ha
      exact Or.inr hm.dir
    case rename p q =>
      obtain ⟨rfl, rfl⟩ := ha
      exact ⟨⟨n, hn, htmp⟩, hm.body_path⟩
    all_goals first | exact absurd ha id | trivial
  | placed d failed =>
    cases e
    case write p data =>
      rcases ha.2 with rfl | rfl
      · exact Or.inl hm.meta_path
      · exact Or.inr hm.hdr_path
    case remove_file p =>
      obtain rfl : p = m.tmp_path := ha
      exact ⟨n, htmp⟩
    all_goals first | exact absurd ha id | trivial

/-- A body that is in place is not written again. -/
theorem writing_of_next {stage : Stage} {r : e.Reply} {file : Option Nat}
    (h : stage.next e r = .writing d file) : ∃ d' file', stage = .writing d' file' := by
  unfold Stage.next at h
  split at h
  all_goals first | exact ⟨_, _, rfl⟩ | exact ⟨_, _, h⟩ | cases h

/-- A directory is not removed, and nothing changes, or it is and all else stands. -/
theorem remove_dir_cases (p : PathBuf) (c : Choice) (w : World) :
    (∃ r, answer (.remove_dir p) c w = (.error r, w)) ∨
    ∃ w', answer (.remove_dir p) c w = (.ok (), w') ∧ w'.tree.node p = none ∧
      ∀ q, q ≠ p → w'.tree.node q = w.tree.node q := by
  simp only [answer, Choice.guard]
  split
  · exact Or.inl ⟨_, rfl⟩
  · split
    · split
      · rename_i hempty
        refine Or.inr ⟨_, rfl, ?_, fun q hq => ?_⟩
        · change (w.tree.remove p).node p = none
          rw [node_remove, if_pos ⟨rfl, hempty⟩]
        · change (w.tree.remove p).node q = _
          rw [node_remove, if_neg fun h => hq h.1]
      · exact Or.inl ⟨_, rfl⟩
    · exact Or.inl ⟨_, rfl⟩
    · exact Or.inl ⟨_, rfl⟩

/-- The directory with the temporary file in it is not removed. -/
theorem removed_of_fileAt {n : Watch} (hm : m.Of cache hash)
    (hstay : FileAt m.tmp_path i d (answer e c w).2) (hkept : seen.removed = false) :
    (seen.after m n e (answer e c w).1 (answer e c w).2).removed = false := by
  cases n with
  | miss stage =>
    cases e
    case rename p q => cases (answer (.rename p q) c w).1 <;> exact hkept
    all_goals exact hkept
  | other n =>
    cases e
    case remove_dir p =>
      rcases remove_dir_cases p c w with ⟨r, hr⟩ | ⟨w', hr, hgone, _⟩
      · rw [hr]
        exact hkept
      · rw [hr] at hstay ⊢
        obtain ⟨x, _, htmp⟩ := hm.tmp_path
        have hnode := hstay.node
        rw [htmp] at hnode
        have hdir := (node_parent hnode DiskCache.entry_ne_nil).2
        rw [DiskCache.dropLast_entry, ← hm.dir] at hdir
        have hne : p ≠ m.dir := by
          rintro rfl
          rw [hgone] at hdir
          cases hdir
        simp [Seen.after, hkept, hne]
    all_goals exact hkept

/-- Another task disturbs nothing that the miss needs. -/
theorem stands_other {stage : Stage} {n : Holder} (hm : m.Of cache hash)
    (h : Stands m i w seen stage) (ha : n.allows cache e) (hn : n.tmp ≠ some m.tmp_path)
    (hmake : e ≠ .create_file m.tmp_path)
    (hheld : ∀ d file, stage = .writing d file → Apart i n.held w) :
    Stands m i (answer e c w).2
      (seen.after m (.other n) e (answer e c w).1 (answer e c w).2) stage ∧
    ∀ d file, stage = .writing d file →
      Apart i (n.next e (answer e c w).1).held (answer e c w).2 := by
  have hleaves := answer_leaves e c w
  obtain ⟨x, hx, hpath⟩ := hm.tmp_path
  cases stage with
  | lost => exact absurd h id
  | writing d file =>
    obtain ⟨hkept, htmp, hfile⟩ := h
    have hno := not_touched ⟨hash, x, hx, hpath⟩ ha hn hmake
    obtain ⟨hstay, hapart⟩ := htmp.other ha hno (hheld d file rfl)
    refine ⟨⟨removed_of_fileAt hm hstay hkept, hstay, fun f hf => ?_⟩, fun _ _ _ => hapart⟩
    obtain ⟨hlt, hino⟩ := hfile f hf
    exact ⟨Nat.lt_of_lt_of_le hlt hleaves.opened_le, (hleaves.files f hlt).trans hino⟩
  | placed d failed =>
    obtain ⟨hbody, hdir, hfailed⟩ := h
    refine ⟨?_, fun _ _ h => by cases h⟩
    by_cases he : ∃ p, e = .remove_dir p
    · obtain ⟨p, rfl⟩ := he
      rcases remove_dir_cases p c w with ⟨r, hr⟩ | ⟨w', hr, _, hnode⟩
      · rw [hr]
        exact ⟨hbody, hdir, hfailed⟩
      · rw [hr]
        refine ⟨hbody, fun hkept => ?_, fun hf => ?_⟩
        · obtain ⟨hkept, hne⟩ : seen.removed = false ∧ p ≠ m.dir := by
            simpa [Seen.after] using hkept
          rw [hnode _ (Ne.symm hne)]
          exact hdir hkept
        · simp [Seen.after, hfailed hf]
    · have hsame : seen.after m (.other n) e (answer e c w).1 (answer e c w).2 = seen := by
        cases e
        case remove_dir p => exact absurd ⟨p, rfl⟩ he
        all_goals rfl
      rw [hsame]
      exact ⟨hbody, fun hr => dir_answer (fun p hp => he ⟨p, hp⟩) (hdir hr), hfailed⟩

end

/-! ## Whole runs -/

section
variable {K M : Type} [CacheHashKey K] [CacheMeta M]

/-- A miss and the tasks of the disk cache that come while it is under way. -/
abbrev shared_system (K M : Type) [CacheHashKey K] [CacheMeta M] (cache : DiskCache)
    (m : DiskMissHandler) :
    System Io Io.Reply Choice World (Gave ⊕ Outcome M) Watch Seen (Task K M) where
  env := answer
  start t := (t.program cache >>= fun r => pure (Sum.inr r), .other (Task.holder t))
  next := Watch.next
  record _ n e r _ w seen := seen.after m n e r w

abbrev SharedPool (M : Type) := Pool Io Io.Reply (Gave ⊕ Outcome M) Watch World Seen

/-- The pool where the miss begins, with no other task. -/
def alone (M : Type) (m : DiskMissHandler) (chunks : Chunks) (d : Bytes) (w : World) :
    SharedPool M :=
  ⟨[(miss m chunks >>= fun r => pure (Sum.inl r), .miss (.writing d none))], w, ⟨none, false⟩⟩

/-- Tasks of all keys come, with other handlers than that of the miss. Their calls may fail, those
of the miss do not, and no new handler gets the name of its temporary file. -/
def Beside (cache : DiskCache) (m : DiskMissHandler) (p : SharedPool M) :
    Event Choice World (Task K M) → Prop
  | .spawn t => t.Of cache ∧ Task.tmp t ≠ some m.tmp_path
  | .call j c => (j = 0 → Calm c) ∧ ∀ x ∈ p.next_call j, x.1 ≠ .create_file m.tmp_path
  | .crash => False
  | .outside _ => False

/-- The miss is the first program, and stands as it should, and all others are other tasks that
leave its file alone. -/
structure Amid (cache : DiskCache) (m : DiskMissHandler) (i : Nat) (notes : List Watch) (w : World)
    (seen : Seen) : Prop where
  laid : cache.Laid w.tree
  miss : ∃ stage, notes[0]? = some (.miss stage) ∧ Stands m i w seen stage ∧
    ∀ j x, j ≠ 0 → notes[j]? = some x → ∃ n, x = .other n ∧ n.tmp ≠ some m.tmp_path ∧
      ∀ d file, stage = .writing d file → Apart i n.held w

/-- How a program of the pool ends. -/
def Ended (d : Bytes) (n : Nat) : Gave ⊕ Outcome M → Watch → Prop
  | .inl gave, .miss stage => Went d n gave stage
  | .inl _, .other _ => False
  | .inr _, .other _ => True
  | .inr _, .miss _ => False

theorem amid_invariant {cache : DiskCache} {hash : CombinedHash} {m : DiskMissHandler}
    (hm : m.Of cache hash) (i : Nat) (d : Bytes) (n : Nat) :
    (shared_system K M cache m).Invariant (Watch.allows cache m) (Ended d n) (Beside cache m)
      (Amid cache m i) where
  start _ t ht := by
    rw [obeys_bind]
    exact obeys_map Watch.other (task_holds t ht.1) (fun _ _ h => h) (fun _ _ _ => rfl)
      fun _ _ _ => trivial
  spawn p t ht _ hI := by
    obtain ⟨hlaid, stage, hstage, hstands, hothers⟩ := hI
    refine ⟨hlaid, stage, ?_, hstands, fun j x hj hx => ?_⟩
    · rw [List.getElem?_append_left (List.getElem?_eq_some_iff.mp hstage).1]
      exact hstage
    · rcases getElem?_append_cases hx with hx | ⟨_, rfl⟩
      · exact hothers j x hj hx
      · exact ⟨_, rfl, ht.2, fun _ _ _ f hf => absurd hf List.not_mem_nil⟩
  call p j c e k x hP hj ha hI := by
    obtain ⟨hlaid, stage, hstage, hstands, hothers⟩ := hI
    have hnext := Pool.next_call_of hj
    have hx := Pool.notes_getElem? hj
    by_cases hzero : j = 0
    · -- a call of the miss
      subst hzero
      obtain rfl : x = .miss stage := Option.some.inj (hx.symm.trans hstage)
      have hlost : stage ≠ .lost := fun h => by rw [h] at hstands; exact hstands
      refine ⟨laid_answer hlaid (stage_of_key hm hlost ha), stage.next e (answer e c p.state).1, ?_,
        stands_miss hm hlaid hstands ha (hP.1 rfl), fun j y hj hy => ?_⟩
      · exact List.getElem?_set_self (List.getElem?_eq_some_iff.mp hstage).1
      · rw [List.getElem?_set_ne (Ne.symm hj)] at hy
        obtain ⟨y, rfl, hne, happart⟩ := hothers j y hj hy
        refine ⟨y, rfl, hne, fun d file hwriting => ?_⟩
        obtain ⟨d', file', hbefore⟩ := writing_of_next hwriting
        exact (happart d' file' hbefore).stay
    · obtain ⟨y, rfl, hy, happart⟩ := hothers j x hzero hx
      have hmake : e ≠ .create_file m.tmp_path := hP.2 _ hnext
      obtain ⟨hstands', happart'⟩ := stands_other (c := c) hm hstands ha hy hmake happart
      refine ⟨laid_answer hlaid ha.2.1, stage, ?_, hstands', fun l z hl hz => ?_⟩
      · rw [List.getElem?_set_ne hzero]
        exact hstage
      · rcases getElem?_set_cases hz with ⟨rfl, rfl⟩ | ⟨_, hz⟩
        · exact ⟨_, rfl, hy, happart'⟩
        · obtain ⟨z, rfl, hne, hold⟩ := hothers l z hl hz
          exact ⟨z, rfl, hne, fun d file hwriting => (hold d file hwriting).stay⟩
  crash _ h _ := absurd h id
  outside _ _ h _ := absurd h id

/-- A miss of which no call fails gets all its chunks in place, and creates its object, whatever
the other tasks do in the meantime, purges of its own key among them, and whatever of theirs
fails. It fails in the end only where a purge of the key has removed the directory, and none has
removed it as long as the body was not in place. -/
theorem a_miss_puts_its_body_in_place (cache : DiskCache) (hash : CombinedHash)
    (m : DiskMissHandler) (hm : m.Of cache hash) (chunks : Chunks) (d : Bytes) (w : World)
    (hw : cache.Laid w.tree) (htmp : w.tree.content m.tmp_path = some d)
    (evs : List (Event Choice World (Task K M))) (p : SharedPool M)
    (hP : (shared_system K M cache m).Along (Beside cache m) (alone M m chunks d w) evs)
    (hr : (shared_system K M cache m).run (alone M m chunks d w) evs = some p)
    (gave : Gave) (hgave : p.results[0]? = some (some (.inl gave))) :
    gave.1 = .ok () ∧ p.history.body = some (d ++ chunks.bytes) ∧
      (p.history.removed = false →
        gave.2 = some (.ok (.Created (m.tmp_bytes_written + chunks.bytes.length)))) ∧
      ∀ pre q, pre <+: evs → (shared_system K M cache m).run (alone M m chunks d w) pre = some q →
        q.history.body = none → q.history.removed = false := by
  obtain ⟨i, hnode⟩ := content_isSome.mp (Option.isSome_of_eq_some htmp)
  rw [content_of_file hnode] at htmp
  have hstart : (shared_system K M cache m).Obedient (Watch.allows cache m)
      (Ended (d ++ chunks.bytes) (m.tmp_bytes_written + chunks.bytes.length))
      (alone M m chunks d w) := by
    intro x hx
    rw [List.mem_singleton.mp hx, obeys_bind]
    exact obeys_map Watch.miss (miss_obeys chunks d) (fun _ _ h => h) (fun _ _ _ => rfl)
      fun _ _ h => h
  have hbegin : Amid cache m i (alone M m chunks d w).notes w ⟨none, false⟩ := by
    refine ⟨hw, .writing d none, rfl, ?_, ?_⟩
    · exact ⟨rfl, ⟨hnode, Option.some.inj htmp⟩, fun f hf => by cases hf⟩
    · intro j x hj hx
      obtain ⟨j, rfl⟩ := Nat.exists_eq_succ_of_ne_zero hj
      cases hx
  have hbefore : ∀ pre q, pre <+: evs →
      (shared_system K M cache m).run (alone M m chunks d w) pre = some q →
      q.history.body = none → q.history.removed = false := by
    intro pre q hpre hrun hnone
    obtain ⟨-, -, stage, -, hstands, -⟩ :=
      (amid_invariant hm i _ _).run hstart hbegin (System.along_of_prefix hpre hP) hrun
    cases stage with
    | writing d file => exact hstands.1
    | placed d failed => exact absurd (hnone.symm.trans hstands.1) (by simp)
    | lost => exact absurd hstands id
  obtain ⟨hobey, -, stage, hstage, hstands, -⟩ :=
    (amid_invariant hm i _ _).run hstart hbegin hP hr
  obtain ⟨x, hx⟩ := Pool.results_getElem? hgave
  obtain rfl : x = .miss stage := Option.some.inj ((Pool.notes_getElem? hx).symm.trans hstage)
  have hwent : Went (d ++ chunks.bytes) (m.tmp_bytes_written + chunks.bytes.length) gave stage :=
    hobey.done (List.mem_of_getElem? hx)
  rcases hwent with rfl | ⟨hwrites, r, hgave, rfl | ⟨failed, rfl, hcreated, herror⟩⟩
  · exact absurd hstands id
  · exact absurd hstands id
  · obtain ⟨hbody, -, hfailed⟩ := hstands
    refine ⟨hwrites, hbody, fun hkept => ?_, hbefore⟩
    have hwell : failed = false := by
      by_contra hf
      rw [hfailed (Bool.eq_true_of_not_eq_false hf)] at hkept
      cases hkept
    rw [hgave, hcreated hwell]

end

/-! ## Runs on a small cache -/

section
variable {K M : Type} [CacheHashKey K] (cache : DiskCache) (m : DiskMissHandler)

instance (p : SharedPool M) : (ev : Event Choice World (Task K M)) → Decidable (Beside cache m p ev)
  | .spawn t => inferInstanceAs (Decidable (t.Of cache ∧ Task.tmp t ≠ some m.tmp_path))
  | .call j c => inferInstanceAs
      (Decidable ((j = 0 → Calm c) ∧ ∀ x ∈ p.next_call j, x.1 ≠ .create_file m.tmp_path))
  | .crash => isFalse id
  | .outside _ => isFalse id

end

/-- What a run of a small miss leads to. -/
def small_shared (chunks : Chunks) (evs : List (Event Choice World (Task CombinedHash Note))) :
    SharedPool Note :=
  let p := alone Note (small_handler [9] 1) chunks [3] rewriting.2
  ((shared_system CombinedHash Note small_cache (small_handler [9] 1)).run p evs).getD p

theorem run_to_small_shared {chunks : Chunks}
    {evs : List (Event Choice World (Task CombinedHash Note))}
    (h : ((shared_system CombinedHash Note small_cache (small_handler [9] 1)).run
      (alone Note (small_handler [9] 1) chunks [3] rewriting.2) evs).isSome) :
    (shared_system CombinedHash Note small_cache (small_handler [9] 1)).run
      (alone Note (small_handler [9] 1) chunks [3] rewriting.2) evs =
        some (small_shared chunks evs) := by
  obtain ⟨q, hq⟩ := Option.isSome_iff_exists.mp h
  simp [small_shared, hq]

/-- The miss opens its file, a purge of its key removes the object that stands, and the miss goes
on. -/
def purged_amid_miss : List (Event Choice World (Task CombinedHash Note)) :=
  Event.calls 0 1 plain ++ [.spawn (.purge small_hash .Invalidation)] ++ Event.calls 1 9 plain ++
    Event.calls 0 9 plain

theorem a_purged_miss_creates_its_object : ∃ p gave,
    (shared_system CombinedHash Note small_cache (small_handler [9] 1)).run
      (alone Note (small_handler [9] 1) [([4, 5], true)] [3] rewriting.2) purged_amid_miss =
        some p ∧
    p.results[0]? = some (some (.inl gave)) ∧
    gave.1 = .ok () ∧ p.history.body = some [3, 4, 5] ∧ gave.2 = some (.ok (.Created 3)) := by
  let p := small_shared [([4, 5], true)] purged_amid_miss
  have hrun : (shared_system CombinedHash Note small_cache (small_handler [9] 1)).run
      (alone Note (small_handler [9] 1) [([4, 5], true)] [3] rewriting.2) purged_amid_miss =
        some p := run_to_small_shared (by decide +kernel)
  have hdone : ∃ gave, p.results[0]? = some (some (.inl gave)) := by
    have hsome : ((p.results[0]?.bind id).bind Sum.getLeft?).isSome := by decide +kernel
    obtain ⟨gave, hgave⟩ := Option.isSome_iff_exists.mp hsome
    obtain ⟨r, hr, hleft⟩ := Option.bind_eq_some_iff.mp hgave
    obtain ⟨x, hx, rfl⟩ := Option.bind_eq_some_iff.mp hr
    rw [Sum.getLeft?_eq_some_iff.mp hleft] at hx
    exact ⟨gave, hx⟩
  obtain ⟨gave, hgave⟩ := hdone
  obtain ⟨hwrites, hbody, hcreated, -⟩ := a_miss_puts_its_body_in_place small_cache small_hash
    (small_handler [9] 1) (small_handler_of _ _) [([4, 5], true)] [3] rewriting.2 rewriting_laid
    (by decide +kernel) purged_amid_miss p (by decide +kernel) hrun gave hgave
  exact ⟨p, gave, hrun, hgave, hwrites, hbody, hcreated (by decide +kernel)⟩

end edge_cdn_store.undisturbed_misses
