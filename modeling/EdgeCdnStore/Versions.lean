-- Which versions a lookup puts together. A finish publishes its three files one
-- after the other, an update rewrites two of them, and a lookup reads all three,
-- and no lock keeps these apart. Where they keep apart by themselves, the three
-- files of a hit are of one committed object.
import EdgeCdnStore.FinishFaults
import EdgeCdnStore.KeyCalls

open edge_cdn_store.programs edge_cdn_store.programs.Program edge_cdn_store.io
open edge_cdn_store.file_tree edge_cdn_store.file_tree.FileTree
open edge_cdn_store.logger edge_cdn_store.disk_cache edge_cdn_store.pools edge_cdn_store.tasks
open edge_cdn_store.slots edge_cdn_store.key_calls edge_cdn_store.operations
open edge_cdn_store.finish_faults

namespace edge_cdn_store.versions

variable {K M : Type} [CacheHashKey K] [CacheMeta M]

/-! ## What was committed -/

/-- A committed object: the number of its body, the handler that wrote it, and the parts of
the metadata that an update has put in place of the handler's own. -/
structure Commit where
  body : Option Nat
  writer : DiskMissHandler
  update : Option (Bytes × Bytes)
  deriving DecidableEq

/-- The two parts of the metadata, both of the handler or both of the last update. -/
def Commit.parts (v : Commit) : Bytes × Bytes :=
  v.update.getD (v.writer.meta_internal, v.writer.meta_header)

/-- All objects that were committed, the newest first. -/
abbrev Versions := List Commit

/-- What a call commits, by the phases of its task: a finish commits its object when the body
is there, and an update when the first of its files is written. -/
def Versions.commit (w : World) (h : Versions) : Phase → Phase → Versions
  | .finish m .before, .finish _ .placed => ⟨ino w.tree m.tmp_path, m, none⟩ :: h
  | .update_meta mi mh .checked, .update_meta _ _ .meta_written =>
    (h.head?.map fun v => { v with update := some (mi, mh) }).toList ++ h
  | _, _ => h

def Versions.record (cache : DiskCache) (_ : Nat) (n : TaskNote) (e : Io) (r : e.Reply)
    (w _ : World) (h : Versions) : Versions :=
  h.commit w n.phase (n.next cache e r).phase

abbrev versions_system (K M : Type) [CacheHashKey K] [CacheMeta M] (cache : DiskCache) :
    System Io Io.Reply Choice World (Outcome M) TaskNote Versions (Task K M) :=
  tasks_system cache (Versions.record cache)

abbrev VersionsPool (M : Type) := Pool Io Io.Reply (Outcome M) TaskNote World Versions

/-! ## The runs -/

/-- The tasks that run on one key. -/
def OnKey (cache : DiskCache) (hash : CombinedHash) : Task K M → Prop
  | .lookup key => CacheHashKey.combined key = hash
  | .finish hash' m => hash' = hash ∧ m.Of cache hash
  | .purge key _ => CacheHashKey.combined key = hash
  | .update_meta key _ => CacheHashKey.combined key = hash
  | _ => False

instance (cache : DiskCache) (hash : CombinedHash) :
    (t : Task K M) → Decidable (OnKey cache hash t)
  | .lookup key => inferInstanceAs (Decidable (CacheHashKey.combined key = hash))
  | .get_miss_handler _ _ => isFalse id
  | .write_body _ _ _ _ => isFalse id
  | .finish hash' m => inferInstanceAs (Decidable (hash' = hash ∧ m.Of cache hash))
  | .drop_handler _ _ => isFalse id
  | .purge key _ => inferInstanceAs (Decidable (CacheHashKey.combined key = hash))
  | .update_meta key _ => inferInstanceAs (Decidable (CacheHashKey.combined key = hash))

/-- The world changes, and the key keeps its three files, and the open files stay. So it is
for whatever goes on with the temporary files, and on other keys. -/
structure Elsewhere (cache : DiskCache) (hash : CombinedHash) (w w' : World) : Prop where
  laid : cache.Laid w'.tree
  slot : slot_of cache hash w' = slot_of cache hash w
  opened_le : w.opened ≤ w'.opened
  files : ∀ f < w.opened, (w'.files f).ino = (w.files f).ino

/-- A finish finds its temporary file when it renames it. -/
def finds_tmp (w : World) : Option (Io × TaskNote) → Bool
  | some (.rename p _, _) => (w.tree.content p).isSome
  | _ => true

/-- Tasks of one key come at any time and make their calls in any order, all succeed, and the
process may crash and start again at any time. -/
def OneKey (cache : DiskCache) (hash : CombinedHash) (p : VersionsPool M) :
    Event Choice World (Task K M) → Prop
  | .spawn t => OnKey cache hash t
  | .call i c => Calm c ∧ finds_tmp p.state (p.next_call i) = true
  | .crash => True
  | .outside w => Elsewhere cache hash p.state w

/-- A finish or an update between the first and the last of its files. -/
def publishing : Phase → Bool
  | .finish _ .placed => true
  | .finish _ .meta_written => true
  | .update_meta _ _ .meta_written => true
  | _ => false

/-- A finish that has still to write its metadata. -/
def owes_meta : Phase → Bool
  | .finish _ .placed => true
  | _ => false

/-- An update that has found the body and has still to write. -/
def found_body : Phase → Bool
  | .update_meta _ _ .checked => true
  | _ => false

/-- How many of its files a lookup has got. -/
def got (mi mh : Option Bytes) (f : Option Nat) : Nat :=
  mi.isSome.toNat + mh.isSome.toNat + f.isSome.toNat

/-- A lookup that has got some of its files, and can still get the others. -/
def halfway : Phase → Bool
  | .lookup asked mi mh f => 0 < asked && asked < 3 && got mi mh f = asked
  | _ => false

/-- The metadata that stands is one that a task has still to replace. -/
def stale_meta (cache : DiskCache) (hash : CombinedHash) (ns : List TaskNote) (w : World) : Bool :=
  (slot_of cache hash w).cache_meta.isSome && ns.any fun n => owes_meta n.phase

/-- The header that stands is one that a task has still to replace. -/
def stale_hdr (cache : DiskCache) (hash : CombinedHash) (ns : List TaskNote) (w : World) : Bool :=
  (slot_of cache hash w).hdr.isSome && ns.any fun n => publishing n.phase

/-- What the next call of a task asks of the others: none is at work on the files that it is
about to replace, and no lookup is halfway through them. A lookup asks for no file that is
still to be replaced. -/
def keeps_apart (cache : DiskCache) (hash : CombinedHash) (ns : List TaskNote) (w : World) :
    Option (Io × TaskNote) → Bool
  | some (.rename _ _, _) =>
    ns.all fun n => !publishing n.phase && !found_body n.phase && !halfway n.phase
  | some (.write _ _, ⟨_, .update_meta _ _ .checked⟩) =>
    ns.all fun n => !publishing n.phase && !halfway n.phase
  | some (.read p, _) =>
    !(p = cache.meta_part hash && stale_meta cache hash ns w) &&
      !(p = cache.hdr hash && stale_hdr cache hash ns w)
  | _ => true

/-- Tasks keep apart, and a crash leaves no file that was still to be replaced. -/
def KeepsApart (cache : DiskCache) (hash : CombinedHash) (p : VersionsPool M) :
    Event Choice World (Task K M) → Prop
  | .call i _ => keeps_apart cache hash p.notes p.state (p.next_call i) = true
  | .crash => stale_meta cache hash p.notes p.state = false ∧
      stale_hdr cache hash p.notes p.state = false
  | _ => True

/-- Whether the world changed elsewhere only is not a question for a program. -/
noncomputable instance (cache : DiskCache) (hash : CombinedHash) (p : VersionsPool M) :
    (ev : Event Choice World (Task K M)) → Decidable (OneKey cache hash p ev)
  | .spawn t => inferInstanceAs (Decidable (OnKey cache hash t))
  | .call i c => inferInstanceAs (Decidable (Calm c ∧ finds_tmp p.state (p.next_call i) = true))
  | .crash => isTrue trivial
  | .outside _ => Classical.propDecidable _

instance (cache : DiskCache) (hash : CombinedHash) (p : VersionsPool M) :
    (ev : Event Choice World (Task K M)) → Decidable (KeepsApart cache hash p ev)
  | .spawn _ => isTrue trivial
  | .call _ _ => inferInstanceAs (Decidable (_ = _))
  | .crash => inferInstanceAs (Decidable (_ ∧ _))
  | .outside _ => isTrue trivial

/-! ## The invariant -/

/-- Of what is there, all is of the newest commit. -/
def Newest (h : Versions) (P : Commit → Prop) : Prop := ∃ v, h.head? = some v ∧ P v

/-- The files of a key are those of the newest commit. Some of them can be missing. -/
structure Stands (s : Slot) (h : Versions) : Prop where
  body : ∀ i, s.body = some i → Newest h fun v => v.body = some i
  cache_meta : ∀ d, s.cache_meta = some d → Newest h fun v => v.parts.1 = d
  hdr : ∀ d, s.hdr = some d → Newest h fun v => v.parts.2 = d

/-- A task that has committed has the newest commit, and an update that has found a body has
something to update. -/
def Writes (h : Versions) : Phase → Prop
  | .finish m .placed => Newest h fun v => v.parts = (m.meta_internal, m.meta_header)
  | .finish m .meta_written => Newest h fun v => v.parts = (m.meta_internal, m.meta_header)
  | .update_meta _ _ .checked => Newest h fun _ => True
  | .update_meta mi mh .meta_written => Newest h fun v => v.parts = (mi, mh)
  | _ => True

/-- What a lookup has got is of one commit. -/
structure Shows (w : World) (v : Commit) (mi mh : Option Bytes) (f : Option Nat) : Prop where
  cache_meta : ∀ d, mi = some d → v.parts.1 = d
  hdr : ∀ d, mh = some d → v.parts.2 = d
  file : ∀ j, f = some j → j < w.opened ∧ v.body = some (w.files j).ino

/-- A lookup that can still hit has its files from one commit, and while some are missing,
from the newest one. -/
def Reads (w : World) (h : Versions) : Phase → Prop
  | .lookup asked mi mh f => got mi mh f ≤ asked ∧
      (got mi mh f = asked → 0 < asked →
        ∃ v ∈ h, Shows w v mi mh f ∧ (asked < 3 → h.head? = some v))
  | _ => True

/-- A task of the key, and not one whose rename has failed. -/
def Known (cache : DiskCache) (hash : CombinedHash) (w : World) (n : TaskNote) : Prop :=
  n.hash = hash ∧ InPlace cache hash w n.phase ∧ ∀ m, n.phase ≠ .finish m .transfer

structure Consistent (cache : DiskCache) (hash : CombinedHash) (ns : List TaskNote) (w : World)
    (h : Versions) : Prop where
  laid : cache.Laid w.tree
  known : ∀ n ∈ ns, Known cache hash w n
  body : ∀ i, (slot_of cache hash w).body = some i → Newest h fun v => v.body = some i
  cache_meta : (∀ n ∈ ns, owes_meta n.phase = false) →
    ∀ d, (slot_of cache hash w).cache_meta = some d → Newest h fun v => v.parts.1 = d
  hdr : (∀ n ∈ ns, publishing n.phase = false) →
    ∀ d, (slot_of cache hash w).hdr = some d → Newest h fun v => v.parts.2 = d
  writes : ∀ n ∈ ns, Writes h n.phase
  reads : ∀ n ∈ ns, Reads w h n.phase

variable {cache : DiskCache} {hash : CombinedHash} {w w' : World} {h : Versions} {e : Io}
  {x y : Phase} {s : Slot} {v : Commit} {ns : List TaskNote} {n n' : TaskNote} {i : Nat}
  {mi mh : Option Bytes} {f : Option Nat} {k : Nat}

/-- A task that stays where it is commits nothing. -/
theorem commit_self : h.commit w x x = h := by
  cases x with
  | finish m stage => cases stage <;> rfl
  | purge stage => rfl
  | update_meta mi mh stage => cases stage <;> rfl
  | lookup asked mi mh f => rfl
  | idle => rfl

theorem newest_cons {P : Commit → Prop} : Newest (v :: h) P ↔ P v := by
  unfold Newest
  simp

theorem Newest.fst {a b d : Bytes} (hv : Newest h fun v => v.parts = (a, b))
    (hd : some a = some d) : Newest h fun v => v.parts.1 = d := by
  obtain ⟨v, hhead, hparts⟩ := hv
  exact ⟨v, hhead, (congrArg Prod.fst hparts).trans (Option.some.inj hd)⟩

theorem Newest.snd {a b d : Bytes} (hv : Newest h fun v => v.parts = (a, b))
    (hd : some b = some d) : Newest h fun v => v.parts.2 = d := by
  obtain ⟨v, hhead, hparts⟩ := hv
  exact ⟨v, hhead, (congrArg Prod.snd hparts).trans (Option.some.inj hd)⟩

/-- A file of which there is none is of any commit. -/
theorem none_newest {α : Type} {o : Option α} {P : α → Prop} (ho : o = none) :
    ∀ d, o = some d → P d := fun d hd => by
  rw [ho] at hd
  cases hd

/-! ### The writers and the readers -/

theorem writes_of_idle (hp : publishing x = false) (hf : found_body x = false) : Writes h x := by
  cases x with
  | finish m stage =>
    cases stage
    case placed => cases hp
    case meta_written => cases hp
    all_goals exact trivial
  | update_meta mi mh stage =>
    cases stage
    case checked => cases hf
    case meta_written => cases hp
    all_goals exact trivial
  | purge stage => exact trivial
  | lookup asked mi mh f => exact trivial
  | idle => exact trivial

/-- A task that waits with its update still has something to update after a commit. -/
theorem writes_of_waiting (hp : publishing x = false) : Writes (v :: h) x := by
  cases x with
  | finish m stage =>
    cases stage
    case placed => cases hp
    case meta_written => cases hp
    all_goals exact trivial
  | update_meta mi mh stage =>
    cases stage
    case checked => exact newest_cons.mpr trivial
    case meta_written => cases hp
    all_goals exact trivial
  | purge stage => exact trivial
  | lookup asked mi mh f => exact trivial
  | idle => exact trivial

theorem Shows.frame (hs : Shows w v mi mh f) (hle : w.opened ≤ w'.opened)
    (hfiles : ∀ j < w.opened, (w'.files j).ino = (w.files j).ino) : Shows w' v mi mh f := by
  refine ⟨hs.cache_meta, hs.hdr, fun j hj => ?_⟩
  obtain ⟨hlt, hbody⟩ := hs.file j hj
  exact ⟨Nat.lt_of_lt_of_le hlt hle, by rw [hfiles j hlt]; exact hbody⟩

theorem Reads.frame (hr : Reads w h x) (hle : w.opened ≤ w'.opened)
    (hfiles : ∀ j < w.opened, (w'.files j).ino = (w.files j).ino) : Reads w' h x := by
  cases x
  case lookup asked mi mh f =>
    refine ⟨hr.1, fun hg h0 => ?_⟩
    obtain ⟨v, hv, hs, hhead⟩ := hr.2 hg h0
    exact ⟨v, hv, hs.frame hle hfiles, hhead⟩
  all_goals exact trivial

/-- A lookup that is not halfway may see a new commit. -/
theorem Reads.commit (hr : Reads w h x) (hx : halfway x = false) : Reads w (v :: h) x := by
  cases x
  case lookup asked mi mh f =>
    refine ⟨hr.1, fun hg h0 => ?_⟩
    obtain ⟨u, hu, hs, _⟩ := hr.2 hg h0
    refine ⟨u, List.mem_cons_of_mem _ hu, hs, fun h3 => ?_⟩
    simp [halfway, hg, h0, h3] at hx
  all_goals exact trivial

/-- A lookup asks for one more file. When it has got all so far, it must have got this one,
and from the commit that the others are from. -/
theorem Reads.next {mi' mh' : Option Bytes} {f' : Option Nat} (hr : Reads w h (.lookup k mi mh f))
    (hgot : got mi' mh' f' ≤ got mi mh f + 1)
    (hnew : got mi' mh' f' = got mi mh f + 1 →
      Newest h fun v => Shows w v mi mh f → Shows w' v mi' mh' f') :
    Reads w' h (.lookup (k + 1) mi' mh' f') := by
  obtain ⟨hk, hone⟩ := hr
  refine ⟨by omega, fun hg _ => ?_⟩
  have hsame : got mi mh f = k := by omega
  have hthree : got mi' mh' f' ≤ 3 := by
    unfold got
    have := Bool.toNat_le mi'.isSome
    have := Bool.toNat_le mh'.isSome
    have := Bool.toNat_le f'.isSome
    omega
  obtain ⟨v, hhead, hshows⟩ := hnew (by omega)
  refine ⟨v, List.mem_of_head? hhead, hshows ?_, fun _ => hhead⟩
  by_cases h0 : k = 0
  · -- it has nothing yet
    have hnone : got mi mh f = 0 := hsame.trans h0
    unfold got at hnone
    cases mi with
    | some d => simp at hnone
    | none =>
      cases mh with
      | some d => simp at hnone
      | none =>
        cases f with
        | some j => simp at hnone
        | none => exact ⟨nofun, nofun, nofun⟩
  · obtain ⟨u, _, hu, hlast⟩ := hone hsame (by omega)
    obtain rfl : v = u := Option.some.inj (hhead.symm.trans (hlast (by omega)))
    exact hu

theorem reads_meta {o : Option Bytes} (hr : Reads w h (.lookup k mi mh f))
    (ho : ∀ d, o = some d → Newest h fun v => v.parts.1 = d) :
    Reads w h (.lookup (k + 1) o mh f) := by
  refine hr.next ?_ fun hg => ?_
  · unfold got
    have := Bool.toNat_le o.isSome
    omega
  · cases o with
    | none =>
      unfold got at hg
      simp at hg
      omega
    | some d =>
      obtain ⟨v, hhead, hd⟩ := ho d rfl
      refine ⟨v, hhead, fun hs => ⟨fun d' h' => ?_, hs.hdr, hs.file⟩⟩
      rw [hd]
      exact Option.some.inj h'

theorem reads_hdr {o : Option Bytes} (hr : Reads w h (.lookup k mi mh f))
    (ho : ∀ d, o = some d → Newest h fun v => v.parts.2 = d) :
    Reads w h (.lookup (k + 1) mi o f) := by
  refine hr.next ?_ fun hg => ?_
  · unfold got
    have := Bool.toNat_le o.isSome
    omega
  · cases o with
    | none =>
      unfold got at hg
      simp at hg
      omega
    | some d =>
      obtain ⟨v, hhead, hd⟩ := ho d rfl
      refine ⟨v, hhead, fun hs => ⟨hs.cache_meta, fun d' h' => ?_, hs.file⟩⟩
      rw [hd]
      exact Option.some.inj h'

theorem reads_no_body (hr : Reads w h (.lookup k mi mh f)) :
    Reads w h (.lookup (k + 1) mi mh none) := by
  refine hr.next ?_ fun hg => ?_
  · unfold got
    simp
    omega
  · unfold got at hg
    simp at hg
    omega

theorem reads_body (hr : Reads w h (.lookup k mi mh f)) (hlt : w.opened < w'.opened)
    (hb : Newest h fun v => v.body = some (w'.files w.opened).ino) :
    Reads w' h (.lookup (k + 1) mi mh (some w.opened)) := by
  refine hr.next ?_ fun _ => ?_
  · unfold got
    simp
  · obtain ⟨v, hhead, hbody⟩ := hb
    refine ⟨v, hhead, fun hs => ⟨hs.cache_meta, hs.hdr, fun j hj => ?_⟩⟩
    obtain rfl : w.opened = j := Option.some.inj hj
    exact ⟨hlt, hbody⟩

/-! ### One call -/

/-- What holds of all notes after one has changed held of all before it, if it did of this. -/
theorem forall_of_set {P : TaskNote → Prop} (hi : ns[i]? = some n) (h : ∀ x ∈ ns.set i n', P x)
    (hn : P n' → P n) : ∀ x ∈ ns, P x := by
  intro x hx
  rcases mem_set_of_mem hi hx n' with rfl | hstays
  · exact hn (h n' (List.mem_set (List.getElem?_eq_some_iff.mp hi).1 n'))
  · exact h x hstays

theorem Known.moves (hn : Known cache hash w n) (hs : Moves cache hash w w' s) :
    Known cache hash w' n := ⟨hn.1, hn.2.1.moves hs, hn.2.2⟩

theorem Consistent.known_set (hI : Consistent cache hash ns w h) (hn' : Known cache hash w' n')
    (hs : Moves cache hash w w' s) : ∀ x ∈ ns.set i n', Known cache hash w' x := by
  intro x hx
  rcases List.mem_or_eq_of_mem_set hx with hx | rfl
  · exact (hI.known x hx).moves hs
  · exact hn'

/-- A call that commits nothing: a file is as it was, or gone, or of the newest commit. -/
theorem Consistent.keep (hI : Consistent cache hash ns w h) (hi : ns[i]? = some n)
    (hn' : Known cache hash w' n') (hs : Moves cache hash w w' s)
    (hb : ∀ j, s.body = some j → (slot_of cache hash w).body = some j)
    (hm : ∀ d, s.cache_meta = some d →
      ((slot_of cache hash w).cache_meta = some d ∧
        (owes_meta n'.phase = false → owes_meta n.phase = false)) ∨
      Newest h fun v => v.parts.1 = d)
    (hh : ∀ d, s.hdr = some d →
      ((slot_of cache hash w).hdr = some d ∧
        (publishing n'.phase = false → publishing n.phase = false)) ∨
      Newest h fun v => v.parts.2 = d)
    (hw : Writes h n'.phase) (hr : Reads w' h n'.phase) :
    Consistent cache hash (ns.set i n') w' h where
  laid := hs.laid
  known := hI.known_set hn' hs
  body j hj := by
    rw [hs.slot] at hj
    exact hI.body j (hb j hj)
  cache_meta hall d hd := by
    rw [hs.slot] at hd
    rcases hm d hd with ⟨hold, howes⟩ | hnew
    · exact hI.cache_meta (forall_of_set hi hall howes) d hold
    · exact hnew
  hdr hall d hd := by
    rw [hs.slot] at hd
    rcases hh d hd with ⟨hold, howes⟩ | hnew
    · exact hI.hdr (forall_of_set hi hall howes) d hold
    · exact hnew
  writes x hx := by
    rcases List.mem_or_eq_of_mem_set hx with hx | rfl
    · exact hI.writes x hx
    · exact hw
  reads x hx := by
    rcases List.mem_or_eq_of_mem_set hx with hx | rfl
    · exact (hI.reads x hx).frame hs.opened_le hs.files
    · exact hr

/-- A finish puts its body in place, while no other task is at work on the files. -/
theorem Consistent.publish {m : DiskMissHandler} {j : Nat} (hI : Consistent cache hash ns w h)
    (hi : ns[i]? = some n) (hn' : Known cache hash w' n') (hphase : n'.phase = .finish m .placed)
    (hs : Moves cache hash w w' { slot_of cache hash w with body := some j })
    (hv : v.body = some j) (hparts : v.parts = (m.meta_internal, m.meta_header))
    (hall : ∀ x ∈ ns, publishing x.phase = false ∧ found_body x.phase = false ∧
      halfway x.phase = false) :
    Consistent cache hash (ns.set i n') w' (v :: h) where
  laid := hs.laid
  known := hI.known_set hn' hs
  body j' hj' := by
    rw [hs.slot] at hj'
    exact newest_cons.mpr (hv.trans hj')
  cache_meta hnone := by
    have := hnone n' (List.mem_set (List.getElem?_eq_some_iff.mp hi).1 n')
    rw [hphase] at this
    cases this
  hdr hnone := by
    have := hnone n' (List.mem_set (List.getElem?_eq_some_iff.mp hi).1 n')
    rw [hphase] at this
    cases this
  writes x hx := by
    rcases List.mem_or_eq_of_mem_set hx with hx | rfl
    · exact writes_of_idle (hall x hx).1 (hall x hx).2.1
    · rw [hphase]
      exact newest_cons.mpr hparts
  reads x hx := by
    rcases List.mem_or_eq_of_mem_set hx with hx | rfl
    · exact ((hI.reads x hx).commit (hall x hx).2.2).frame hs.opened_le hs.files
    · rw [hphase]
      exact trivial

/-- An update writes the first of its two files, while no other task is at work on them. -/
theorem Consistent.update {mi mh : Bytes} (hI : Consistent cache hash ns w h)
    (hi : ns[i]? = some n) (hn' : Known cache hash w' n')
    (hphase : n'.phase = .update_meta mi mh .meta_written)
    (hs : Moves cache hash w w' { slot_of cache hash w with cache_meta := some mi })
    (hv : h.head? = some v)
    (hall : ∀ x ∈ ns, publishing x.phase = false ∧ halfway x.phase = false) :
    Consistent cache hash (ns.set i n') w' ({ v with update := some (mi, mh) } :: h) where
  laid := hs.laid
  known := hI.known_set hn' hs
  body j hj := by
    rw [hs.slot] at hj
    obtain ⟨u, hu, hbody⟩ := hI.body j hj
    obtain rfl : v = u := Option.some.inj (hv.symm.trans hu)
    exact newest_cons.mpr hbody
  cache_meta _ d hd := by
    rw [hs.slot] at hd
    exact newest_cons.mpr (Option.some.inj hd)
  hdr hnone := by
    have := hnone n' (List.mem_set (List.getElem?_eq_some_iff.mp hi).1 n')
    rw [hphase] at this
    cases this
  writes x hx := by
    rcases List.mem_or_eq_of_mem_set hx with hx | rfl
    · exact writes_of_waiting (hall x hx).1
    · rw [hphase]
      exact newest_cons.mpr rfl
  reads x hx := by
    rcases List.mem_or_eq_of_mem_set hx with hx | rfl
    · exact ((hI.reads x hx).commit (hall x hx).2).frame hs.opened_le hs.files
    · rw [hphase]
      exact trivial

/-- Nothing changes but the phase of a task, or files go. -/
theorem Consistent.quiet (hI : Consistent cache hash ns w h) (hi : ns[i]? = some n)
    (hn' : Known cache hash w' n') (hs : Moves cache hash w w' s)
    (hb : s.body = (slot_of cache hash w).body ∨ s.body = none)
    (hm : s.cache_meta = (slot_of cache hash w).cache_meta ∨ s.cache_meta = none)
    (hh : s.hdr = (slot_of cache hash w).hdr ∨ s.hdr = none)
    (ho : owes_meta n.phase = owes_meta n'.phase) (hp : publishing n.phase = publishing n'.phase)
    (hw : Writes h n'.phase) (hr : Reads w' h n'.phase) :
    Consistent cache hash (ns.set i n') w' h := by
  refine hI.keep hi hn' hs (fun j hj => ?_) (fun d hd => Or.inl ⟨?_, fun h => ho.trans h⟩)
    (fun d hd => Or.inl ⟨?_, fun h => hp.trans h⟩) hw hr
  · rcases hb with hb | hb
    · exact hb ▸ hj
    · rw [hb] at hj
      cases hj
  · rcases hm with hm | hm
    · exact hm ▸ hd
    · rw [hm] at hd
      cases hd
  · rcases hh with hh | hh
    · exact hh ▸ hd
    · rw [hh] at hd
      cases hd

/-- A file that cannot be written has no directory: then the key has no files. -/
theorem Consistent.no_files (hI : Consistent cache hash ns w h) (hi : ns[i]? = some n)
    (hn' : Known cache hash w' n') (hs : Moves cache hash w w' (slot_of cache hash w))
    (hnone : slot_of cache hash w = ⟨none, none, none⟩) (hw : Writes h n'.phase)
    (hr : Reads w' h n'.phase) : Consistent cache hash (ns.set i n') w' h :=
  hI.keep hi hn' hs (fun _ hj => hj) (none_newest (by rw [hnone])) (none_newest (by rw [hnone]))
    hw hr

/-- A lookup may read the metadata that stands: it is of the newest commit. -/
theorem Consistent.meta_newest (hI : Consistent cache hash ns w h)
    (hst : stale_meta cache hash ns w = false) :
    ∀ d, (slot_of cache hash w).cache_meta = some d → Newest h fun v => v.parts.1 = d := by
  intro d hd
  unfold stale_meta at hst
  rw [hd] at hst
  exact hI.cache_meta (by simpa using hst) d hd

theorem Consistent.hdr_newest (hI : Consistent cache hash ns w h)
    (hst : stale_hdr cache hash ns w = false) :
    ∀ d, (slot_of cache hash w).hdr = some d → Newest h fun v => v.parts.2 = d := by
  intro d hd
  unfold stale_hdr at hst
  rw [hd] at hst
  exact hI.hdr (by simpa using hst) d hd

/-- One call of a task that keeps apart from the others. -/
theorem Consistent.call (hI : Consistent cache hash ns w h) (hi : ns[i]? = some n)
    (hn' : n'.hash = n.hash) (hcall : KeyCall cache hash e w w' n.phase n'.phase s)
    (hs : Moves cache hash w w' s) (htmp : finds_tmp w (some (e, n)) = true)
    (hapart : keeps_apart cache hash ns w (some (e, n)) = true) :
    Consistent cache hash (ns.set i n') w' (h.commit w n.phase n'.phase) := by
  obtain ⟨hhash, hplace, hno⟩ := hI.known n (List.mem_of_getElem? hi)
  have hwrites := hI.writes n (List.mem_of_getElem? hi)
  have hreads := hI.reads n (List.mem_of_getElem? hi)
  have hplace' := hcall.inPlace hplace hs
  obtain ⟨hash', x⟩ := n
  obtain ⟨hash'', y⟩ := n'
  obtain rfl : hash'' = hash' := hn'
  have hknown : (∀ m, y ≠ .finish m .transfer) → Known cache hash w' ⟨hash'', y⟩ :=
    fun h => ⟨hhash, hplace', h⟩
  cases hcall
  -- finish
  case no_tmp m he hnone =>
    subst he
    simp only [finds_tmp, hnone] at htmp
    cases htmp
  case gives_up m => exact absurd rfl (hno m)
  case publish m j he hj =>
    subst he
    have hv : (Commit.mk (ino w.tree m.tmp_path) m none).body = some j := ino_of_file hj
    refine hI.publish hi (hknown nofun) rfl hs hv rfl fun x hx => ?_
    simpa [and_assoc] using List.all_eq_true.mp hapart x hx
  case finish_meta m =>
    exact hI.keep hi (hknown nofun) hs (fun _ hj => hj) (fun d hd => Or.inr (hwrites.fst hd))
      (fun d hd => Or.inl ⟨hd, nofun⟩) hwrites trivial
  case finish_no_meta m hnone => exact hI.no_files hi (hknown nofun) hs hnone trivial trivial
  case finish_hdr m =>
    exact hI.keep hi (hknown nofun) hs (fun _ hj => hj) (fun d hd => Or.inl ⟨hd, fun _ => rfl⟩)
      (fun d hd => Or.inr (hwrites.snd hd)) trivial trivial
  case finish_no_hdr m hnone => exact hI.no_files hi (hknown nofun) hs hnone trivial trivial
  case counted m =>
    exact hI.quiet hi (hknown nofun) hs (.inl rfl) (.inl rfl) (.inl rfl) rfl rfl trivial trivial
  -- purge
  case measured len len' =>
    exact hI.quiet hi (hknown nofun) hs (.inl rfl) (.inl rfl) (.inl rfl) rfl rfl trivial trivial
  case purge_body len =>
    exact hI.quiet hi (hknown nofun) hs (.inr rfl) (.inl rfl) (.inl rfl) rfl rfl trivial trivial
  case purge_no_body len =>
    exact hI.quiet hi (hknown nofun) hs (.inr rfl) (.inl rfl) (.inl rfl) rfl rfl trivial trivial
  case paid len =>
    exact hI.quiet hi (hknown nofun) hs (.inl rfl) (.inl rfl) (.inl rfl) rfl rfl trivial trivial
  case purge_meta =>
    exact hI.quiet hi (hknown nofun) hs (.inl rfl) (.inr rfl) (.inl rfl) rfl rfl trivial trivial
  case purge_hdr =>
    exact hI.quiet hi (hknown nofun) hs (.inl rfl) (.inl rfl) (.inr rfl) rfl rfl trivial trivial
  -- update_meta
  case found mi mh hb =>
    obtain ⟨j, hj⟩ := Option.isSome_iff_exists.mp hb
    obtain ⟨v, hhead, _⟩ := hI.body j hj
    exact hI.quiet hi (hknown nofun) hs (.inl rfl) (.inl rfl) (.inl rfl) rfl rfl
      ⟨v, hhead, trivial⟩ trivial
  case not_found mi mh =>
    exact hI.quiet hi (hknown nofun) hs (.inl rfl) (.inl rfl) (.inl rfl) rfl rfl trivial trivial
  case update_meta mi mh he =>
    subst he
    obtain ⟨v, hhead, _⟩ := hwrites
    have hcommit : h.commit w (.update_meta mi mh .checked) (.update_meta mi mh .meta_written) =
        { v with update := some (mi, mh) } :: h := by
      simp [Versions.commit, hhead]
    simp only [hcommit]
    refine hI.update hi (hknown nofun) rfl hs hhead fun x hx => ?_
    simpa using List.all_eq_true.mp hapart x hx
  case update_no_meta mi mh hnone =>
    exact hI.no_files hi (hknown nofun) hs hnone trivial trivial
  case update_hdr mi mh =>
    exact hI.keep hi (hknown nofun) hs (fun _ hj => hj) (fun d hd => Or.inl ⟨hd, fun _ => rfl⟩)
      (fun d hd => Or.inr (hwrites.snd hd)) trivial trivial
  case update_no_hdr mi mh hnone =>
    exact hI.no_files hi (hknown nofun) hs hnone trivial trivial
  -- lookup
  case read_meta k mi mh f he =>
    subst he
    have hst : stale_meta cache hash ns w = false := by
      simp only [keeps_apart, Bool.and_eq_true] at hapart
      simpa using hapart.1
    exact hI.quiet hi (hknown nofun) hs (.inl rfl) (.inl rfl) (.inl rfl) rfl rfl trivial
      ((reads_meta hreads (hI.meta_newest hst)).frame hs.opened_le hs.files)
  case read_hdr k mi mh f he =>
    subst he
    have hst : stale_hdr cache hash ns w = false := by
      simp only [keeps_apart, Bool.and_eq_true] at hapart
      simpa using hapart.2
    exact hI.quiet hi (hknown nofun) hs (.inl rfl) (.inl rfl) (.inl rfl) rfl rfl trivial
      ((reads_hdr hreads (hI.hdr_newest hst)).frame hs.opened_le hs.files)
  case open_body k j mi mh f hj hlt hf =>
    have hb : Newest h fun v => v.body = some (w'.files w.opened).ino := by
      rw [hf]
      exact hI.body j hj
    exact hI.quiet hi (hknown nofun) hs (.inl rfl) (.inl rfl) (.inl rfl) rfl rfl trivial
      (reads_body hreads hlt hb)
  case open_no_body k mi mh f =>
    exact hI.quiet hi (hknown nofun) hs (.inl rfl) (.inl rfl) (.inl rfl) rfl rfl trivial
      ((reads_no_body hreads).frame hs.opened_le hs.files)
  case stays =>
    simp only [commit_self]
    exact hI.quiet hi (hknown hno) hs (.inl rfl) (.inl rfl) (.inl rfl) rfl rfl hwrites
      (hreads.frame hs.opened_le hs.files)

/-! ## Whole runs -/

theorem consistent_invariant (cache : DiskCache) (hash : CombinedHash) :
    (versions_system K M cache).Invariant (TaskNote.allows cache) Ends
      (fun p ev => OneKey cache hash p ev ∧ KeepsApart cache hash p ev)
      (Consistent cache hash) where
  start _ t _ := task_obeys cache t
  spawn p t hP _ hI := by
    have hkey : OnKey cache hash t := hP.1
    have hnew : Known cache hash p.state t.note ∧ owes_meta t.note.phase = false ∧
        publishing t.note.phase = false ∧ Writes p.history t.note.phase ∧
        Reads p.state p.history t.note.phase := by
      cases t with
      | lookup key =>
        exact ⟨⟨hkey, trivial, nofun⟩, rfl, rfl, trivial, Nat.le_refl _, fun _ h => nomatch h⟩
      | finish hash' m => exact ⟨⟨hkey.1, ⟨hkey.2, Or.inl rfl⟩, nofun⟩, rfl, rfl, trivial, trivial⟩
      | purge key purge_type => exact ⟨⟨hkey, trivial, nofun⟩, rfl, rfl, trivial, trivial⟩
      | update_meta key cache_meta =>
        obtain ⟨mi, mh, hnote | hnote⟩ := note_update_meta key cache_meta
        all_goals
          rw [hnote]
          exact ⟨⟨hkey, trivial, nofun⟩, rfl, rfl, trivial, trivial⟩
      | get_miss_handler key cache_meta => exact absurd hkey id
      | write_body hash' m data is_eof => exact absurd hkey id
      | drop_handler hash' m => exact absurd hkey id
    obtain ⟨hknown, _, _, hwrites, hreads⟩ := hnew
    have hall : ∀ {P : TaskNote → Prop}, (∀ n ∈ p.notes, P n) → P t.note →
        ∀ n ∈ p.notes ++ [t.note], P n := by
      intro P hold hnote n hn
      rcases List.mem_append.mp hn with hn | hn
      · exact hold n hn
      · rw [List.mem_singleton.mp hn]
        exact hnote
    exact ⟨hI.laid, hall hI.known hknown, hI.body,
      fun h => hI.cache_meta fun n hn => h n (List.mem_append_left _ hn),
      fun h => hI.hdr fun n hn => h n (List.mem_append_left _ hn),
      hall hI.writes hwrites, hall hI.reads hreads⟩
  call p i c e k n hP hi ha hI := by
    obtain ⟨⟨hcalm, htmp⟩, hapart⟩ := hP
    have hn := Pool.notes_getElem? hi
    have hnext := Pool.next_call_of hi
    rw [hnext] at htmp
    simp only [KeepsApart, hnext] at hapart
    obtain ⟨hhash, hplace, _⟩ := hI.known n (List.mem_of_getElem? hn)
    obtain ⟨s, hcall, hs⟩ := key_call hI.laid hcalm hhash hplace ha
    exact hI.call hn (next_hash n e _) hcall hs htmp hapart
  crash p hP hI :=
    ⟨hI.laid, fun _ hn => absurd hn List.not_mem_nil, hI.body, fun _ => hI.meta_newest hP.2.1,
      fun _ => hI.hdr_newest hP.2.2, fun _ hn => absurd hn List.not_mem_nil,
      fun _ hn => absurd hn List.not_mem_nil⟩
  outside p w' hP hI := by
    have hw : Elsewhere cache hash p.state w' := hP.1
    refine ⟨hw.laid, fun n hn => ?_, ?_, ?_, ?_, hI.writes,
      fun n hn => (hI.reads n hn).frame hw.opened_le hw.files⟩
    · obtain ⟨hhash, hplace, hno⟩ := hI.known n hn
      exact ⟨hhash, hplace.of_no_transfer hno, hno⟩
    · rw [hw.slot]
      exact hI.body
    · rw [hw.slot]
      exact hI.cache_meta
    · rw [hw.slot]
      exact hI.hdr

/-- In every run of finishes, updates, purges and lookups on one key, with crashes at any time,
in which the tasks keep apart: the body and the metadata of each hit are of one object that was
committed. -/
theorem every_hit_is_of_one_committed_object (cache : DiskCache) (hash : CombinedHash) (w : World)
    (h : Versions) (hw : cache.Laid w.tree) (hs : Stands (slot_of cache hash w) h)
    (evs : List (Event Choice World (Task K M))) (p : VersionsPool M)
    (hP : (versions_system K M cache).Along
      (fun p ev => OneKey cache hash p ev ∧ KeepsApart cache hash p ev) ⟨[], w, h⟩ evs)
    (hr : (versions_system K M cache).run ⟨[], w, h⟩ evs = some p) :
    ∀ n cache_meta hit, (.done (.found (.ok (some (cache_meta, hit)))), n) ∈ p.threads →
      ∃ v ∈ p.history, v.body = some (p.state.files hit.file).ino ∧
        CacheMeta.deserialize v.parts.1 v.parts.2 = .ok cache_meta := by
  have hstart : Consistent cache hash [] w h :=
    ⟨hw, fun _ hn => absurd hn List.not_mem_nil, hs.body, fun _ => hs.cache_meta,
      fun _ => hs.hdr, fun _ hn => absurd hn List.not_mem_nil,
      fun _ hn => absurd hn List.not_mem_nil⟩
  obtain ⟨hobey, hI⟩ := (consistent_invariant cache hash).run (p := ⟨[], w, h⟩)
    (fun x hx => absurd hx List.not_mem_nil) hstart hP hr
  intro n cache_meta hit hd
  obtain ⟨mi, mh, hphase, hde⟩ := (hobey.done hd).hit cache_meta hit rfl
  have hreads := hI.reads n (List.mem_map.mpr ⟨_, hd, rfl⟩)
  rw [hphase] at hreads
  obtain ⟨v, hv, hshows, _⟩ := hreads.2 rfl (by decide)
  refine ⟨v, hv, (hshows.file _ rfl).2, ?_⟩
  rw [hshows.cache_meta mi rfl, hshows.hdr mh rfl]
  exact hde

/-! ## Runs on a small cache -/

/-- The object that stands on the small cache, while a handler has written another one. -/
def first_object : Versions := [⟨some 0, small_handler [7] 1, none⟩]

abbrev SmallEvents := List (Event Choice World (Task CombinedHash Note))

abbrev small_run (evs : SmallEvents) : Option (VersionsPool Note) :=
  (versions_system CombinedHash Note small_cache).run ⟨[], rewriting.2, first_object⟩ evs

def is_hit : Option (Outcome Note) → Bool
  | some (.found (.ok (some _))) => true
  | _ => false

/-- A lookup has returned what no commit has. -/
def mixes (p : VersionsPool Note) : Option (Outcome Note) → Bool
  | some (.found (.ok (some (cache_meta, hit)))) =>
    p.history.all fun v => !(v.body = some (p.state.files hit.file).ino &&
      CacheMeta.deserialize v.parts.1 v.parts.2 = .ok cache_meta)
  | _ => false

/-- A lookup that follows a finish through the three files. -/
def lookup_behind_finish : SmallEvents :=
  [.spawn (.finish small_hash (small_handler [9] 1)), .spawn (.lookup small_hash)] ++
    Event.calls 0 2 plain ++ Event.calls 1 1 plain ++ [.call 1 ⟨none, 0, 4⟩] ++
    Event.calls 1 1 plain ++ Event.calls 0 1 plain ++ Event.calls 1 1 plain ++
    Event.calls 0 1 plain ++ Event.calls 1 3 plain

theorem a_lookup_behind_a_finish_hits :
    ∃ p, small_run lookup_behind_finish = some p ∧ p.results.any is_hit = true ∧
      ∀ n cache_meta hit, (.done (.found (.ok (some (cache_meta, hit)))), n) ∈ p.threads →
        ∃ v ∈ p.history, v.body = some (p.state.files hit.file).ino ∧
          CacheMeta.deserialize v.parts.1 v.parts.2 = .ok cache_meta := by
  have hrun : (small_run lookup_behind_finish).any (fun p => p.results.any is_hit) = true := by
    decide +kernel
  obtain ⟨p, hp, hhit⟩ := (Option.any_eq_true _ _).mp hrun
  have hstands : Stands (slot_of small_cache small_hash rewriting.2) first_object := by
    have hslot : slot_of small_cache small_hash rewriting.2 = ⟨some 0, some [7], some []⟩ := by
      decide +kernel
    rw [hslot]
    refine ⟨fun i hi => ⟨_, rfl, ?_⟩, fun d hd => ⟨_, rfl, ?_⟩, fun d hd => ⟨_, rfl, ?_⟩⟩
    · exact hi
    · exact Option.some.inj hd
    · exact Option.some.inj hd
  exact ⟨p, hp, hhit, every_hit_is_of_one_committed_object small_cache small_hash rewriting.2
    first_object rewriting_laid hstands lookup_behind_finish p (by decide +kernel) hp⟩

/-- A finish renames its body over the older one when a lookup has read the older metadata. -/
def finish_under_lookup : SmallEvents :=
  [.spawn (.lookup small_hash), .spawn (.finish small_hash (small_handler [9] 1))] ++
    Event.calls 0 4 plain ++ Event.calls 1 2 plain ++ Event.calls 0 3 plain

/-- The process crashes when the body of a finish is there, and the older metadata. -/
def crash_in_finish : SmallEvents :=
  [.spawn (.finish small_hash (small_handler [9] 1))] ++ Event.calls 0 2 plain ++
    [.crash, .spawn (.lookup small_hash)] ++ Event.calls 0 7 plain

theorem a_hit_mixes_an_old_object_with_a_new_one :
    (versions_system CombinedHash Note small_cache).Along (OneKey small_cache small_hash)
      ⟨[], rewriting.2, first_object⟩ finish_under_lookup ∧
    (small_run finish_under_lookup).map (fun p => p.results.any (mixes p)) = some true ∧
    (versions_system CombinedHash Note small_cache).Along (OneKey small_cache small_hash)
      ⟨[], rewriting.2, first_object⟩ crash_in_finish ∧
    (small_run crash_in_finish).map (fun p => p.results.any (mixes p)) = some true := by
  refine ⟨by decide +kernel, by decide +kernel, by decide +kernel, by decide +kernel⟩

end edge_cdn_store.versions
