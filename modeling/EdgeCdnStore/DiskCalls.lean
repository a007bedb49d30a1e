-- Which calls the functions of the disk cache make, whatever they get in reply. Most
-- of them go by paths only. What the others do is said by the name of the call.
import EdgeCdnStore.DiskCache

open edge_cdn_store.programs edge_cdn_store.programs.Program edge_cdn_store.io
open edge_cdn_store.logger

namespace edge_cdn_store.disk_cache

variable {K M : Type} [CacheHashKey K] [CacheMeta M]

/-- The calls that make, move, copy, look for and remove files, and the clock. -/
def PathCall : Io → Prop
  | .create_dir_all _ => True
  | .open_file _ => True
  | .create_file _ => True
  | .copy_rounds => True
  | .copy_some _ _ => True
  | .copy_rest _ _ => True
  | .write _ _ => True
  | .rename _ _ => True
  | .metadata _ => True
  | .exists_path _ => True
  | .remove_file _ => True
  | .remove_dir _ => True
  | .now => True
  | .process_id => True
  | _ => False

/-- The calls of a write at the end of a file. -/
def AppendCall : Io → Prop
  | .open_append _ => True
  | .write_all _ _ => True
  | .flush _ => True
  | _ => False

namespace DiskMissHandler

theorem create_tmp_calls (dir : PathBuf) (hint : List Char) :
    (create_tmp dir hint).Calls PathCall := by
  apply calls_bind (calls_perform.mpr trivial)
  intro now
  apply calls_bind (calls_perform.mpr trivial)
  intro pid
  apply calls_bind (calls_perform.mpr trivial)
  intro _
  apply calls_bind (calls_perform.mpr trivial)
  intro r
  cases r <;> exact calls_pure _

theorem write_body_calls (m : DiskMissHandler) (data : Bytes) (is_eof : Bool) :
    (m.write_body data is_eof).Calls AppendCall := by
  apply calls_bind (calls_perform.mpr trivial)
  intro r
  cases r with
  | error e => exact calls_pure _
  | ok f =>
    apply calls_bind (calls_perform.mpr trivial)
    intro r
    cases r with
    | error e => exact calls_pure _
    | ok _ =>
      cases is_eof with
      | false => exact calls_pure _
      | true => exact calls_bind (calls_perform.mpr trivial) fun _ => calls_pure _

theorem drop_calls (m : DiskMissHandler) : m.drop.Calls PathCall :=
  calls_bind (calls_perform.mpr trivial) fun _ => calls_pure _

end DiskMissHandler

namespace DiskHitHandler

/-- The calls that read from one open file. -/
def ReadCall (f : Nat) : Io → Prop
  | .seek_file g _ => g = f
  | .read_file g _ => g = f
  | _ => False

theorem read_body_calls (hit : DiskHitHandler) : hit.read_body.Calls (ReadCall hit.file) := by
  have hchunk : ∀ h : DiskHitHandler, h.file = hit.file →
      h.read_chunk.Calls (ReadCall hit.file) := by
    intro h hf
    unfold read_chunk
    split
    · exact calls_pure _
    · refine calls_bind (calls_perform.mpr hf) fun r => ?_
      cases r with
      | error e => exact calls_pure _
      | ok buf =>
        simp only
        split <;> exact calls_pure _
  unfold read_body
  split
  · refine calls_bind (calls_perform.mpr rfl) fun r => ?_
    cases r with
    | error e => exact calls_pure _
    | ok _ => exact hchunk _ rfl
  · exact hchunk hit rfl

end DiskHitHandler

namespace DiskCache

theorem update_meta_calls (self : DiskCache) (key : K) (cache_meta : M) :
    (self.update_meta key cache_meta).Calls PathCall := by
  apply calls_bind (calls_perform.mpr trivial)
  intro there
  cases there with
  | false => exact calls_pure _
  | true =>
    simp only [if_true]
    cases CacheMeta.serialize cache_meta with
    | error e => exact calls_pure _
    | ok parts =>
      apply calls_bind (calls_perform.mpr trivial)
      intro r
      cases r with
      | error e => exact calls_pure _
      | ok _ =>
        apply calls_bind (calls_perform.mpr trivial)
        intro r
        cases r <;> exact calls_pure _

theorem get_miss_handler_calls (self : DiskCache) (key : K) (cache_meta : M) :
    (self.get_miss_handler key cache_meta).Calls (fun e => PathCall e ∨ e = .inc_by .misses 1) := by
  refine calls_bind (calls_perform.mpr (Or.inr rfl)) fun _ => ?_
  simp only [path_from_key, path_from_hash]
  cases CacheMeta.serialize cache_meta with
  | error e => exact calls_pure _
  | ok parts =>
    refine calls_bind (calls_perform.mpr (Or.inl trivial)) fun _ => ?_
    refine calls_bind (calls_mono (DiskMissHandler.create_tmp_calls _ _) fun _ h => Or.inl h)
      fun r => ?_
    cases r <;> exact calls_pure _

end DiskCache

end edge_cdn_store.disk_cache
