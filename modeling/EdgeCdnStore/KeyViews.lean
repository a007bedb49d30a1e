-- One call of a key on two machines that look the same from the directory of the
-- key on: it gets the same reply on both, and they still look the same.
import EdgeCdnStore.Sites
import EdgeCdnStore.TreeViews

open edge_cdn_store.io edge_cdn_store.sites edge_cdn_store.disk_cache
open edge_cdn_store.file_tree edge_cdn_store.file_tree.FileTree

namespace edge_cdn_store.key_views

/-- Two worlds that look the same from `top` on, and through the numbers that are open. -/
structure WorldAlike (top : PathBuf) (r : Pairing) (w w' : World) : Prop where
  tree : w.tree.Alike top r w'.tree
  opened : w'.opened = w.opened
  files : ∀ f, f < w.opened → ∃ j, r (w.files f).ino = some j ∧ w'.files f = ⟨j, (w.files f).pos⟩
  pid : w'.pid = w.pid

/-- The same reply, and worlds that look the same again. -/
def Matches {ρ : Type} (top : PathBuf) (r : Pairing) (w : World) (x y : ρ × World) : Prop :=
  y.1 = x.1 ∧ ∃ r', Extends w.tree r r' ∧ WorldAlike top r' x.2 y.2

variable {top p q : PathBuf} {r r' : Pairing} {w w' : World} {c : Choice}

theorem WorldAlike.matches {ρ : Type} (h : WorldAlike top r w w') (a : ρ) :
    Matches top r w (a, w) (a, w') := ⟨rfl, r, .refl _ r, h⟩

/-- A call that fails does so on both machines, and changes neither. -/
theorem Matches.guard {α : Type} {x y : Except IoError α × World} (h : Matches top r w x y)
    (hw : WorldAlike top r w w') : Matches top r w (c.guard w x) (c.guard w' y) := by
  unfold Choice.guard
  split
  · exact hw.matches _
  · exact h

theorem WorldAlike.setTree {t t' : FileTree (List Char) UInt8} (h : WorldAlike top r w w')
    (hr : ∀ i j, r i = some j → r' i = some j) (ht : t.Alike top r' t') :
    WorldAlike top r' (w.setTree t) (w'.setTree t') where
  tree := ht
  opened := h.opened
  files f hf := by
    obtain ⟨j, hj, hfile⟩ := h.files f hf
    exact ⟨j, hr _ _ hj, hfile⟩
  pid := h.pid

theorem WorldAlike.setMetrics (h : WorldAlike top r w w') (m m' : CacheMetrics) :
    WorldAlike top r (w.setMetrics m) (w'.setMetrics m') := ⟨h.tree, h.opened, h.files, h.pid⟩

theorem WorldAlike.openIno {i j : Nat} (h : WorldAlike top r w w') (hij : r i = some j) :
    WorldAlike top r (w.openIno i) (w'.openIno j) where
  tree := h.tree
  opened := congrArg (· + 1) h.opened
  files f hf := by
    unfold World.openIno at hf ⊢
    simp only [h.opened]
    by_cases hfo : f = w.opened
    · rw [hfo, Function.update_self, Function.update_self]
      exact ⟨j, hij, rfl⟩
    · rw [Function.update_of_ne hfo, Function.update_of_ne hfo]
      exact h.files f (by simp only at hf; omega)
  pid := h.pid

theorem WorldAlike.setPos (h : WorldAlike top r w w') {f : Nat} (pos : Nat) :
    WorldAlike top r (w.setPos f pos) (w'.setPos f pos) where
  tree := h.tree
  opened := h.opened
  files g hg := by
    obtain ⟨j, hj, hfile⟩ := h.files g hg
    unfold World.setPos
    by_cases hgf : g = f
    · subst hgf
      simp only [Function.update_self]
      exact ⟨j, hj, by rw [hfile]⟩
    · simp only [Function.update_of_ne hgf]
      exact ⟨j, hj, hfile⟩
  pid := h.pid

/-- The bytes that a number has open. -/
theorem WorldAlike.file_data (h : WorldAlike top r w w') {f : Nat} (hf : f < w.opened) :
    w'.tree.data (w'.files f).ino = w.tree.data (w.files f).ino ∧
      (w'.files f).pos = (w.files f).pos := by
  obtain ⟨j, hj, hfile⟩ := h.files f hf
  rw [hfile]
  exact ⟨h.tree.data _ _ hj, rfl⟩

theorem WorldAlike.rest (h : WorldAlike top r w w') {f : Nat} (hf : f < w.opened) :
    w'.rest f = w.rest f := by
  unfold World.rest
  rw [(h.file_data hf).1, (h.file_data hf).2]

theorem WorldAlike.setData (h : WorldAlike top r w w') {f : Nat} (hf : f < w.opened) (d : Bytes) :
    WorldAlike top r (w.setTree (w.tree.setData (w.files f).ino d))
      (w'.setTree (w'.tree.setData (w'.files f).ino d)) := by
  obtain ⟨j, hj, hfile⟩ := h.files f hf
  rw [hfile]
  exact h.setTree (fun _ _ hij => hij) (h.tree.setData hj d)

theorem WorldAlike.append (h : WorldAlike top r w w') {f : Nat} (hf : f < w.opened) (d : Bytes) :
    WorldAlike top r (w.append f d) (w'.append f d) := by
  unfold World.append
  simp only [(h.file_data hf).1]
  exact h.setData hf _

theorem WorldAlike.transfer (h : WorldAlike top r w w') {src dst : Nat} (hsrc : src < w.opened)
    (hdst : dst < w.opened) (n : Nat) :
    WorldAlike top r (w.transfer src dst n) (w'.transfer src dst n) := by
  unfold World.transfer
  simp only [h.rest hsrc, (h.file_data hsrc).2, (h.file_data hdst).1, (h.file_data hdst).2]
  exact ((h.setData hdst _).setPos _).setPos _

theorem WorldAlike.openError (h : WorldAlike top r w w') (hp : top <+: p) :
    openError w'.tree p = openError w.tree p := by
  unfold io.openError
  simp only [(h.tree.node p hp).dir_iff]

/-! ## The calls of the key -/

section
variable (h : WorldAlike top r w w')
include h

/-- A file that is opened, for reading or at its end. -/
theorem open_matches (hp : top <+: p) :
    Matches top r w (answer (.open_file p) c w) (answer (.open_file p) c w') := by
  apply Matches.guard _ h
  rcases (h.tree.node p hp).split with ⟨hn, hn'⟩ | ⟨hn, hn'⟩ | ⟨i, j, hn, hn', hij⟩
  · simp only [hn, hn', h.openError hp]
    exact h.matches _
  · simp only [hn, hn', h.openError hp]
    exact h.matches _
  · simp only [hn, hn', h.opened]
    exact ⟨rfl, r, .refl _ r, h.openIno hij⟩

theorem create_matches (hp : top <+: p) (hpart : top <+: p.dropLast) :
    Matches top r w (answer (.create_file p) c w) (answer (.create_file p) c w') := by
  apply Matches.guard _ h
  by_cases hc : w.tree.CanCreate p
  · have hc' := (h.tree.canCreate hp hpart).mp hc
    obtain ⟨r', i, j, hext, halike, hij, hi, hj⟩ := h.tree.create hp hpart hc
    rw [if_pos hc, if_pos hc']
    simp only [hi, hj, h.opened]
    exact ⟨rfl, r', hext, (h.setTree hext.keeps halike).openIno hij⟩
  · have hc' : ¬ w'.tree.CanCreate p := fun hc' => hc ((h.tree.canCreate hp hpart).mpr hc')
    rw [if_neg hc, if_neg hc', h.openError hp]
    exact h.matches _

theorem write_matches (hp : top <+: p) (hpart : top <+: p.dropLast) (d : Bytes) :
    Matches top r w (answer (.write p d) c w) (answer (.write p d) c w') := by
  simp only [answer]
  have hput : ∀ {ρ : Type} (a : ρ) (d : Bytes), w.tree.CanCreate p →
      Matches top r w (a, w.setTree (w.tree.put p d)) (a, w'.setTree (w'.tree.put p d)) := by
    intro ρ a d hc
    obtain ⟨r', hext, halike⟩ := h.tree.put hp hpart hc d
    exact ⟨rfl, r', hext, h.setTree hext.keeps halike⟩
  by_cases hc : w.tree.CanCreate p
  · have hc' := (h.tree.canCreate hp hpart).mp hc
    simp only [if_pos hc, if_pos hc']
    split
    · exact hput _ d hc
    · exact h.matches _
    · exact hput _ _ hc
  · have hc' : ¬ w'.tree.CanCreate p := fun hc' => hc ((h.tree.canCreate hp hpart).mpr hc')
    simp only [if_neg hc, if_neg hc', h.openError hp]
    split <;> exact h.matches _

theorem rename_matches (hp : top <+: p) (hq : top <+: q) (hpart : top <+: q.dropLast) :
    Matches top r w (answer (.rename p q) c w) (answer (.rename p q) c w') := by
  apply Matches.guard _ h
  rcases (h.tree.node p hp).split with ⟨hn, hn'⟩ | ⟨hn, hn'⟩ | ⟨i, j, hn, hn', hij⟩
  · simp only [hn, hn', h.openError hp]
    exact h.matches _
  · simp only [hn, hn', h.openError hp]
    exact h.matches _
  · simp only [hn, hn']
    by_cases hc : w.tree.CanMove p q
    · have hc' := (h.tree.canMove hq hpart).mp hc
      rw [if_pos hc, if_pos hc']
      exact ⟨rfl, r, .refl _ r, h.setTree (fun _ _ hij => hij) (h.tree.move hp hq hpart hn hc)⟩
    · have hc' : ¬ w'.tree.CanMove p q := fun hc' => hc ((h.tree.canMove hq hpart).mpr hc')
      rw [if_neg hc, if_neg hc', h.openError hq]
      split <;> exact h.matches _

theorem remove_file_matches (hp : top <+: p) :
    Matches top r w (answer (.remove_file p) c w) (answer (.remove_file p) c w') := by
  apply Matches.guard _ h
  rcases (h.tree.node p hp).split with ⟨hn, hn'⟩ | ⟨hn, hn'⟩ | ⟨i, j, hn, hn', hij⟩
  · simp only [hn, hn']
    exact h.matches _
  · simp only [hn, hn']
    exact h.matches _
  · simp only [hn, hn']
    exact ⟨rfl, r, .refl _ r, h.setTree (fun _ _ hij => hij) (h.tree.remove hp)⟩

theorem remove_dir_matches (hp : top <+: p) :
    Matches top r w (answer (.remove_dir p) c w) (answer (.remove_dir p) c w') := by
  apply Matches.guard _ h
  rcases (h.tree.node p hp).split with ⟨hn, hn'⟩ | ⟨hn, hn'⟩ | ⟨i, j, hn, hn', hij⟩
  · simp only [hn, hn']
    exact h.matches _
  · simp only [hn, hn']
    by_cases hc : Childless w.tree.nodes p
    · rw [if_pos hc, if_pos ((h.tree.childless hp).mp hc)]
      exact ⟨rfl, r, .refl _ r, h.setTree (fun _ _ hij => hij) (h.tree.remove hp)⟩
    · rw [if_neg hc, if_neg fun hc' => hc ((h.tree.childless hp).mpr hc')]
      exact h.matches _
  · simp only [hn, hn']
    exact h.matches _

theorem mkdirs_matches (hp : p <+: top) :
    Matches top r w (answer (.create_dir_all p) c w) (answer (.create_dir_all p) c w') := by
  apply Matches.guard _ h
  simp only [h.tree.mkdirs_dir_iff hp]
  exact ⟨rfl, r, .refl _ r, h.setTree (fun _ _ hij => hij) (h.tree.mkdirs hp)⟩

theorem metadata_matches (hp : top <+: p) :
    Matches top r w (answer (.metadata p) c w) (answer (.metadata p) c w') := by
  apply Matches.guard _ h
  rcases (h.tree.node p hp).split with ⟨hn, hn'⟩ | ⟨hn, hn'⟩ | ⟨i, j, hn, hn', hij⟩
  · simp only [hn, hn']
    exact h.matches _
  · simp only [hn, hn']
    exact h.matches _
  · simp only [hn, hn', h.tree.data i j hij]
    exact h.matches _

theorem read_matches (hp : top <+: p) :
    Matches top r w (answer (.read p) c w) (answer (.read p) c w') := by
  apply Matches.guard _ h
  simp only [h.tree.content hp, h.openError hp]
  exact h.matches _

end

/-- A call of a key, by numbers that are open, gets the same reply from two machines that look
the same from the directory of the key on, and they look the same again. -/
theorem answer_matches {cache : DiskCache} {hash : CombinedHash} {e : Io}
    (h : WorldAlike (cache.dir hash) r w w') (he : OfKey cache hash e)
    (hopen : ∀ f ∈ handles e, f < w.opened) :
    Matches (cache.dir hash) r w (answer e c w) (answer e c w') := by
  have hentry : ∀ n, cache.dir hash <+: cache.entry hash n := fun n => List.prefix_append _ _
  have hpart : ∀ n, cache.dir hash <+: (cache.entry hash n).dropLast := by
    intro n
    rw [DiskCache.dropLast_entry]
  cases e
  case create_dir_all p =>
    rcases he with rfl | rfl
    · exact mkdirs_matches h (List.prefix_append _ _)
    · exact mkdirs_matches h List.prefix_rfl
  case read p =>
    obtain ⟨n, rfl⟩ := he
    exact read_matches h (hentry n)
  case open_file p =>
    obtain ⟨n, rfl⟩ := he
    exact open_matches h (hentry n)
  case open_append p =>
    obtain ⟨n, _, rfl⟩ := he
    exact open_matches h (hentry n)
  case create_file p =>
    obtain ⟨n, _, rfl⟩ := he
    exact create_matches h (hentry n) (hpart n)
  case write p d =>
    rcases he with rfl | rfl
    · exact write_matches h (hentry _) (hpart _) d
    · exact write_matches h (hentry _) (hpart _) d
  case rename p q =>
    obtain ⟨⟨n, _, rfl⟩, rfl⟩ := he
    exact rename_matches h (hentry n) (hentry _) (hpart _)
  case metadata p =>
    obtain ⟨n, rfl⟩ := he
    exact metadata_matches h (hentry n)
  case exists_path p =>
    obtain ⟨n, rfl⟩ := he
    have hsome : (w'.tree.node (cache.entry hash n)).isSome =
        (w.tree.node (cache.entry hash n)).isSome := by
      rw [Bool.eq_iff_iff, Option.isSome_iff_ne_none, Option.isSome_iff_ne_none, ne_eq, ne_eq,
        (h.tree.node _ (hentry n)).none_iff]
    simp only [answer, hsome]
    exact h.matches _
  case remove_file p =>
    obtain ⟨n, rfl⟩ := he
    exact remove_file_matches h (hentry n)
  case remove_dir p =>
    obtain rfl : p = cache.dir hash := he
    exact remove_dir_matches h List.prefix_rfl
  case file_len f =>
    have hf := hopen f (List.mem_singleton_self f)
    apply Matches.guard _ h
    simp only [(h.file_data hf).1]
    exact h.matches _
  case read_file f n =>
    have hf := hopen f (List.mem_singleton_self f)
    apply Matches.guard _ h
    simp only [h.rest hf, (h.file_data hf).2]
    exact ⟨rfl, r, .refl _ r, h.setPos _⟩
  case seek_file f pos =>
    apply Matches.guard _ h
    exact ⟨rfl, r, .refl _ r, h.setPos _⟩
  case write_all f d =>
    have hf := hopen f (List.mem_singleton_self f)
    simp only [answer]
    split
    · exact ⟨rfl, r, .refl _ r, h.append hf d⟩
    · exact h.matches _
    · exact ⟨rfl, r, .refl _ r, h.append hf _⟩
  case flush f => exact Matches.guard (h.matches _) h
  case copy_some src dst =>
    have hsrc := hopen src List.mem_cons_self
    have hdst := hopen dst (List.mem_cons_of_mem _ (List.mem_singleton_self _))
    simp only [answer]
    split
    · exact ⟨rfl, r, .refl _ r, h.transfer hsrc hdst _⟩
    · exact h.matches _
    · exact ⟨rfl, r, .refl _ r, h.transfer hsrc hdst _⟩
  case copy_rest src dst =>
    have hsrc := hopen src List.mem_cons_self
    have hdst := hopen dst (List.mem_cons_of_mem _ (List.mem_singleton_self _))
    simp only [answer, h.rest hsrc]
    split
    · exact ⟨rfl, r, .refl _ r, h.transfer hsrc hdst _⟩
    · exact h.matches _
    · exact ⟨rfl, r, .refl _ r, h.transfer hsrc hdst _⟩
  case process_id =>
    simp only [answer, h.pid]
    exact h.matches _
  case copy_rounds => exact h.matches _
  case now => exact h.matches _
  case join_order => exact h.matches _
  case inc_by k n => exact ⟨rfl, r, .refl _ r, h.setMetrics _ _⟩
  case size_bytes_add n => exact ⟨rfl, r, .refl _ r, h.setMetrics _ _⟩
  case size_bytes_sub n => exact ⟨rfl, r, .refl _ r, h.setMetrics _ _⟩

end edge_cdn_store.key_views
