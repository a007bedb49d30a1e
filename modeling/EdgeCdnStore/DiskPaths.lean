-- Where the disk cache puts things. Each key has a directory of its own, and in
-- it stand the body, the metadata in two files, and the temporary files of the
-- handlers that are still at work. No two of these paths are one.
import EdgeCdnStore.DiskCache
import EdgeCdnStore.FileFrames

open edge_cdn_store.programs edge_cdn_store.io edge_cdn_store.file_tree

namespace edge_cdn_store.disk_cache

/-! ## The names -/

/-- The name of a temporary file. It has a dash, and none of the three cache files has. -/
def IsTmp (n : List Char) : Prop := '-' ∈ n

theorem isTmp_tmp_name (hint : List Char) (pid nanos : Nat) :
    IsTmp (DiskMissHandler.tmp_name hint pid nanos) := by
  simp [IsTmp, DiskMissHandler.tmp_name]

theorem IsTmp.ne {n m : List Char} (h : IsTmp n) (hm : '-' ∉ m) : n ≠ m := by
  rintro rfl
  exact hm h

namespace DiskCache

variable {cache : DiskCache} {hash hash' : CombinedHash} {n n' : List Char} {p : PathBuf}

/-- The file with name `n` in the directory of a key. -/
def entry (cache : DiskCache) (hash : CombinedHash) (n : List Char) : PathBuf :=
  cache.dir hash ++ [n]

theorem body_eq (cache : DiskCache) (hash : CombinedHash) :
    cache.body hash = cache.entry hash "body".toList := rfl
theorem meta_part_eq (cache : DiskCache) (hash : CombinedHash) :
    cache.meta_part hash = cache.entry hash "meta".toList := rfl
theorem hdr_eq (cache : DiskCache) (hash : CombinedHash) :
    cache.hdr hash = cache.entry hash "hdr".toList := rfl

@[simp] theorem length_dir : (cache.dir hash).length = cache.root.length + 3 := by
  simp [dir]

@[simp] theorem dropLast_entry : (cache.entry hash n).dropLast = cache.dir hash := by
  simp [entry]

theorem entry_ne_nil : cache.entry hash n ≠ [] := by simp [entry]

theorem dir_inj : cache.dir hash = cache.dir hash' ↔ hash = hash' := by
  refine ⟨fun h => ?_, congrArg _⟩
  have := List.append_cancel_left h
  simp only [List.cons.injEq, and_true] at this
  cases hash
  cases hash'
  simpa using this.2.2

@[simp] theorem entry_inj : cache.entry hash n = cache.entry hash' n' ↔ hash = hash' ∧ n = n' := by
  refine ⟨fun h => ?_, fun ⟨h, hn⟩ => by rw [h, hn]⟩
  obtain ⟨hd, hn⟩ := List.append_inj' h rfl
  exact ⟨dir_inj.mp hd, by simpa using hn⟩

/-- Files with two names are two files, whatever their keys. -/
theorem entry_ne (h : n ≠ n') : cache.entry hash n ≠ cache.entry hash' n' :=
  fun he => h (entry_inj.mp he).2

theorem entry_ne_of_hash (h : hash ≠ hash') : cache.entry hash n ≠ cache.entry hash' n' :=
  fun he => h (entry_inj.mp he).1

/-! ## The layout -/

/-- The paths for directories: the directory of each key, and all above it. -/
def dirs (cache : DiskCache) : Set PathBuf := {p | ∃ hash, p <+: cache.dir hash}

/-- The paths for files: all in the directory of a key. -/
def files (cache : DiskCache) : Set PathBuf := {p | ∃ hash n, p = cache.entry hash n}

/-- The paths of the bodies. -/
def bodies (cache : DiskCache) : Set PathBuf := {p | ∃ hash, p = cache.body hash}

/-- Files stand where the cache has files, and directories where it has directories. -/
abbrev Laid (cache : DiskCache) (t : FileTree (List Char) UInt8) : Prop :=
  t.Shaped cache.dirs cache.files

theorem entry_mem_files : cache.entry hash n ∈ cache.files := ⟨hash, n, rfl⟩

theorem dir_mem_dirs : cache.dir hash ∈ cache.dirs := ⟨hash, List.prefix_rfl⟩

theorem mem_dirs_of_prefix {q : PathBuf} (hp : p ∈ cache.dirs) (hq : q <+: p) : q ∈ cache.dirs := by
  obtain ⟨hash, h⟩ := hp
  exact ⟨hash, hq.trans h⟩

theorem not_mem_dirs_of_mem_files (hp : p ∈ cache.files) : p ∉ cache.dirs := by
  rintro ⟨hash', h⟩
  obtain ⟨hash, n, rfl⟩ := hp
  have := h.length_le
  simp only [entry, List.length_append, length_dir, List.length_singleton] at this
  omega

theorem entry_not_mem_dirs : cache.entry hash n ∉ cache.dirs :=
  not_mem_dirs_of_mem_files entry_mem_files

theorem not_mem_files_of_mem_dirs (hp : p ∈ cache.dirs) : p ∉ cache.files :=
  fun h => not_mem_dirs_of_mem_files h hp

theorem root_mem_dirs (cache : DiskCache) (hash : CombinedHash) : cache.root ∈ cache.dirs :=
  ⟨hash, List.prefix_append _ _⟩

theorem body_mem_bodies : cache.entry hash "body".toList ∈ cache.bodies := ⟨hash, rfl⟩

theorem entry_mem_bodies : cache.entry hash n ∈ cache.bodies ↔ n = "body".toList := by
  refine ⟨?_, fun h => h ▸ body_mem_bodies⟩
  rintro ⟨hash', h⟩
  exact (entry_inj.mp h).2

theorem meta_not_mem_bodies : cache.entry hash "meta".toList ∉ cache.bodies := by
  rw [entry_mem_bodies]
  decide

theorem hdr_not_mem_bodies : cache.entry hash "hdr".toList ∉ cache.bodies := by
  rw [entry_mem_bodies]
  decide

end DiskCache

/-! ## A handler of a key -/

/-- The handler has the paths of a key, and a temporary file beside them. -/
structure DiskMissHandler.Of (cache : DiskCache) (hash : CombinedHash) (m : DiskMissHandler) :
    Prop where
  dir : m.dir = cache.dir hash
  body_path : m.body_path = cache.entry hash "body".toList
  meta_path : m.meta_path = cache.entry hash "meta".toList
  hdr_path : m.hdr_path = cache.entry hash "hdr".toList
  tmp_path : ∃ n, IsTmp n ∧ m.tmp_path = cache.entry hash n

/-- The temporary file of a handler goes by its last component. -/
theorem DiskMissHandler.of_iff {cache : DiskCache} {hash : CombinedHash} {m : DiskMissHandler} :
    m.Of cache hash ↔ m.dir = cache.dir hash ∧ m.body_path = cache.entry hash "body".toList ∧
      m.meta_path = cache.entry hash "meta".toList ∧ m.hdr_path = cache.entry hash "hdr".toList ∧
      '-' ∈ m.tmp_path.getLastD [] ∧ m.tmp_path = cache.entry hash (m.tmp_path.getLastD []) := by
  constructor
  · rintro ⟨hd, hb, hm, hh, n, hn, ht⟩
    have hlast : m.tmp_path.getLastD [] = n := by
      rw [ht, DiskCache.entry, List.getLastD_concat]
    rw [hlast]
    exact ⟨hd, hb, hm, hh, hn, ht⟩
  · rintro ⟨hd, hb, hm, hh, hn, ht⟩
    exact ⟨hd, hb, hm, hh, _, hn, ht⟩

instance (cache : DiskCache) (hash : CombinedHash) (m : DiskMissHandler) :
    Decidable (m.Of cache hash) := decidable_of_iff' _ DiskMissHandler.of_iff

end edge_cdn_store.disk_cache
