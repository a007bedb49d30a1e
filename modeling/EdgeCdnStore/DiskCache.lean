-- The disk cache, as `disk_cache/mod.rs`, `handle_miss.rs` and `handle_hit.rs`
-- have it: the lookup, the handlers of a miss and of a hit, the purge and the
-- update of the metadata. Each function is a program over the calls of `Io`.
import EdgeCdnStore.Io
import EdgeCdnStore.Logger

open edge_cdn_store.programs edge_cdn_store.io edge_cdn_store.logger

namespace edge_cdn_store.disk_cache

def DEFAULT_READ_BUFFER_SIZE : Nat := 256 * 1024

/-- The combined hash of a key: hexadecimal digits, enough of them for two prefixes. -/
structure CombinedHash where
  text : List Char
  long : 4 ≤ text.length
  hex : text.all (fun c => c.isDigit || ('a' ≤ c && c ≤ 'f'))
  deriving DecidableEq

/-- `CacheHashKey`: what the storage reads of a `CacheKey` or a `CompactCacheKey`. -/
class CacheHashKey (K : Type) where
  combined : K → CombinedHash

/-- `CacheMeta`: the metadata of an object, which goes to disk in two parts. -/
class CacheMeta (M : Type) where
  serialize : M → Result (Bytes × Bytes)
  deserialize : Bytes → Bytes → Result M

inductive PurgeType
  | Eviction
  | Invalidation
  deriving DecidableEq, Repr

inductive MissFinishType
  | Created (n : Nat)
  | Appended (n : Nat)
  deriving DecidableEq, Repr

structure DiskCache where
  root : PathBuf

variable {K M : Type} [CacheHashKey K] [CacheMeta M]

/-! ## The paths of a key -/

namespace DiskCache

/-- The directory of a key: `$CACHE_ROOT/hash[0..2]/hash[2..4]/hash`. -/
def dir (self : DiskCache) (hash : CombinedHash) : PathBuf :=
  self.root ++ [hash.text.take 2, (hash.text.drop 2).take 2, hash.text]

def body (self : DiskCache) (hash : CombinedHash) : PathBuf := self.dir hash ++ ["body".toList]
def meta_part (self : DiskCache) (hash : CombinedHash) : PathBuf :=
  self.dir hash ++ ["meta".toList]
def hdr (self : DiskCache) (hash : CombinedHash) : PathBuf := self.dir hash ++ ["hdr".toList]

def path_from_hash (self : DiskCache) (hash : CombinedHash) :
    CombinedHash × PathBuf × PathBuf × PathBuf × PathBuf :=
  (hash, self.dir hash, self.body hash, self.meta_part hash, self.hdr hash)

/-- Also `path_from_compact_key`: both read the combined hash only. -/
def path_from_key (self : DiskCache) (key : K) :
    CombinedHash × PathBuf × PathBuf × PathBuf × PathBuf :=
  self.path_from_hash (CacheHashKey.combined key)

end DiskCache

/-! ## The handler of a miss -/

structure DiskMissHandler where
  tmp_path : PathBuf
  tmp_bytes_written : Nat
  dir : PathBuf
  body_path : PathBuf
  meta_path : PathBuf
  hdr_path : PathBuf
  meta_internal : Bytes
  meta_header : Bytes
  deriving DecidableEq

namespace DiskMissHandler

/-- `format!("{}.tmp-{}-{}", hint, pid, nanos)` -/
def tmp_name (hint : List Char) (pid nanos : Nat) : List Char :=
  hint ++ ".tmp-".toList ++ (toString pid).toList ++ "-".toList ++ (toString nanos).toList

def create_tmp (path_dir : PathBuf) (hint : List Char) : Prog (Result (PathBuf × Nat)) := do
  -- a clock before the epoch reads as 0, as `unwrap_or_default` has it
  let nanos := (← now).toNat
  let tmp_path := path_dir ++ [tmp_name hint (← process_id) nanos]
  let _ ← fs.create_dir_all tmp_path.dropLast
  match ← File.create tmp_path with
  | .ok f => return .ok (tmp_path, f)
  | .error e => return e_explain .InternalError s!"failed to create tmp file: {e}"

/-- The handler after the call comes with the result. -/
def write_body (self : DiskMissHandler) (data : Bytes) (is_eof : Bool) :
    Prog (Result Unit × DiskMissHandler) := do
  let fn_name := "write_body"
  match ← File.open_append self.tmp_path with
  | .error e =>
    return (trace_fn_exit_with_err fn_name s!"Can't open tmp file for append: {e}" none true, self)
  | .ok file =>
    match ← File.write_all file data with
    | .error e =>
      return (trace_fn_exit_with_err fn_name s!"Error writing to tmp file: {e}" none true, self)
    | .ok () =>
      let self := { self with tmp_bytes_written := self.tmp_bytes_written + data.length }
      if is_eof then
        let _ ← File.flush file
        return (.ok (), self)
      else
        return (.ok (), self)

/-- `Drop`: the temporary file goes, whatever that gives. -/
def drop (self : DiskMissHandler) : Prog Unit := do
  let _ ← fs.remove_file self.tmp_path
  return ()

/-- The manual transfer of `finish`, after a rename that failed. -/
def transfer (self : DiskMissHandler) : Prog (Result Unit) := do
  let fn_name := "finish"
  match ← File.open_read self.tmp_path with
  | .error e =>
    return trace_fn_exit_with_err fn_name s!"Can't open tmp file for append: {e}" none false
  | .ok tmp_file =>
    match ← File.create self.body_path with
    | .error e => return trace_fn_exit_with_err fn_name s!"Can't create cache file: {e}" none false
    | .ok cache_file =>
      match ← copy tmp_file cache_file with
      | .error e =>
        return trace_fn_exit_with_err fn_name s!"Failed to copy tmp to cache body: {e}" none false
      | .ok () =>
        let _ ← fs.remove_file self.tmp_path
        return .ok ()

/-- The first part of `finish`: the temporary file becomes the cache file. -/
def promote (self : DiskMissHandler) : Prog (Result Unit) := do
  match ← fs.rename self.tmp_path self.body_path with
  | .ok () => return .ok ()
  | .error _ => self.transfer

/-- The last part of `finish`: the metadata, and the metrics. -/
def write_meta_parts (self : DiskMissHandler) : Prog (Result MissFinishType) := do
  let fn_name := "finish"
  match ← fs.write self.meta_path self.meta_internal with
  | .error e => return trace_fn_exit_with_err fn_name s!"Failed to write cache meta: {e}" none false
  | .ok () =>
    match ← fs.write self.hdr_path self.meta_header with
    | .error e => return trace_fn_exit_with_err fn_name s!"Failed to write cache hdr: {e}" none false
    | .ok () =>
      inc .inserts
      size_bytes_add self.tmp_bytes_written
      return .ok (.Created self.tmp_bytes_written)

/-- `finish` consumes the handler, so the handler is dropped on each way out. -/
def finish (self : DiskMissHandler) : Prog (Result MissFinishType) := do
  let _ ← fs.create_dir_all self.dir
  match ← self.promote with
  | .error e =>
    self.drop
    return .error e
  | .ok () =>
    let result ← self.write_meta_parts
    self.drop
    return result

end DiskMissHandler

/-! ## The handler of a hit -/

structure DiskHitHandler where
  file : Nat
  total_len : Nat
  range_start : Nat
  range_end : Nat
  pos : Nat
  pending_seek : Bool
  chunk : Nat
  deriving DecidableEq, Repr

namespace DiskHitHandler

/-- One read, with the cursor where it should be. -/
def read_chunk (self : DiskHitHandler) : Prog (Result (Option Bytes) × DiskHitHandler) := do
  if self.range_end ≤ self.pos then
    return (.ok none, self)
  else
    let to_read := min self.chunk (self.range_end - self.pos)
    match ← File.read self.file to_read with
    | .error e =>
      return (trace_fn_exit_with_err "read_body" s!"read of cache file failed: {e}" none false, self)
    | .ok buf =>
      if buf.length = 0 then
        return (.ok none, { self with pos := self.range_end })
      else
        return (.ok (some buf), { self with pos := self.pos + buf.length })

def read_body (self : DiskHitHandler) : Prog (Result (Option Bytes) × DiskHitHandler) := do
  if self.pending_seek then
    match ← File.seek self.file self.range_start with
    | .error e => return (trace_fn_exit_with_err "read_body" s!"seek failed: {e}" none false, self)
    | .ok () => read_chunk { self with pos := self.range_start, pending_seek := false }
  else
    read_chunk self

def finish (_self : DiskHitHandler) : Prog (Result Unit) := do
  inc .served_hits
  return .ok ()

/-- The seek itself waits for the next read. -/
def seek (self : DiskHitHandler) (start : Nat) (stop : Option Nat) :
    Result Unit × DiskHitHandler :=
  let fn_name := "seek"
  match stop with
  | some stop =>
    if self.total_len < stop then
      (trace_fn_exit_with_err fn_name s!"seek end > length: {stop} > {self.total_len}" none false,
        self)
    else seekTo fn_name stop
  | none => seekTo fn_name self.total_len
where
  seekTo (fn_name : String) (stop : Nat) : Result Unit × DiskHitHandler :=
    if stop < start then
      (trace_fn_exit_with_err fn_name s!"seek start > end: {start} > {stop}" none false, self)
    else (.ok (), { self with range_start := start, range_end := stop, pending_seek := true })

def get_eviction_weight (self : DiskHitHandler) : Nat := self.total_len

end DiskHitHandler

/-! ## The storage -/

namespace DiskCache

/-- The handler of a lookup that found its three files, and the metadata it read. -/
def hit_of (body_path : PathBuf) (meta_bin hdr_bin : Bytes) (file : Nat) :
    Prog (Result (Option (M × DiskHitHandler))) := do
  match ← File.len file with
  | .error e =>
    return trace_fn_exit_with_err "lookup"
      s!"unable to determine file size for cached entry {display body_path}: {e}" none false
  | .ok total_len =>
    inc .lookup_hits
    match CacheMeta.deserialize (M := M) meta_bin hdr_bin with
    | .error e => return .error e
    | .ok cache_meta =>
      let hit : DiskHitHandler :=
        { file
          total_len
          range_start := 0
          range_end := total_len
          pos := 0
          pending_seek := false
          chunk := DEFAULT_READ_BUFFER_SIZE }
      return .ok (some (cache_meta, hit))

def lookup (self : DiskCache) (key : K) : Prog (Result (Option (M × DiskHitHandler))) := do
  match ← fs.create_dir_all self.root with
  | .error e =>
    return trace_fn_exit_with_err "lookup"
      s!"Unable to create disk cache directory {display self.root}: {e}" none false
  | .ok () =>
    let (_hash, _dir, body_path, meta_path, hdr_path) := self.path_from_key key
    let (meta_res, hdr_res, file_res) ←
      join3 (fs.read meta_path) (fs.read hdr_path) (File.open_read body_path)
    match meta_res, hdr_res, file_res with
    | .ok meta_bin, .ok hdr_bin, .ok file => hit_of body_path meta_bin hdr_bin file
    | _, _, _ => do
      inc .misses
      return .ok none

def get_miss_handler (self : DiskCache) (key : K) (cache_meta : M) : Prog (Result DiskMissHandler) := do
  inc .misses
  let (hash, dir, body_path, meta_path, hdr_path) := self.path_from_key key
  match CacheMeta.serialize cache_meta with
  | .error e => return .error e
  | .ok (meta_internal, meta_header) =>
    let _ ← fs.create_dir_all dir
    match ← DiskMissHandler.create_tmp dir hash.text with
    | .error e => return .error e
    | .ok (tmp_path, _file) =>
      return .ok
        { tmp_path
          tmp_bytes_written := 0
          dir
          body_path
          meta_path
          hdr_path
          meta_internal
          meta_header }

/-- The removals after the body. Whatever they give is ignored. -/
def purge_rest (dir meta_path hdr_path : PathBuf) : Prog Unit := do
  let _ ← fs.remove_file meta_path
  let _ ← fs.remove_file hdr_path
  let _ ← fs.remove_dir dir
  return ()

def purge (self : DiskCache) (key : K) (_purge_type : PurgeType) : Prog (Result Bool) := do
  inc .purge_attempts
  let (_hash, dir, body_path, meta_path, hdr_path) := self.path_from_key key
  let body_bytes := match ← fs.metadata body_path with
    | .ok len => len
    | .error _ => 0
  match ← fs.remove_file body_path with
  | .ok () =>
    inc .evictions
    inc_by .evicted_bytes body_bytes
    size_bytes_sub body_bytes
    purge_rest dir meta_path hdr_path
    return .ok true
  | .error _ =>
    -- also when the body is there and the removal fails
    purge_rest dir meta_path hdr_path
    return .ok false

def update_meta (self : DiskCache) (key : K) (cache_meta : M) : Prog (Result Bool) := do
  let fn_name := "update_meta"
  let (_hash, _dir, body_path, meta_path, hdr_path) := self.path_from_key key
  if ← fs.path_exists body_path then
    match CacheMeta.serialize cache_meta with
    | .error e => return .error e
    | .ok (meta_internal, meta_header) =>
      match ← fs.write meta_path meta_internal with
      | .error e => return trace_fn_exit_with_err fn_name s!"failed to update meta: {e}" none false
      | .ok () =>
        match ← fs.write hdr_path meta_header with
        | .error e => return trace_fn_exit_with_err fn_name s!"failed to update hdr: {e}" none false
        | .ok () => return .ok true
  else
    return .ok false

end DiskCache

end edge_cdn_store.disk_cache
