-- The trait `HandleMiss`: what the owner of a miss handler can do with it. The
-- handler of the disk cache is one, and the fan-out handler takes two of any kind
-- and is one again.
import EdgeCdnStore.DiskCache

open edge_cdn_store.io edge_cdn_store.logger edge_cdn_store.disk_cache

namespace edge_cdn_store.miss_handlers

/-- `HandleMiss`, for handlers `H`. Its functions are programs of any kind `P`. A write gives the
handler as it is after the call, and a finish consumes it. -/
structure HandleMiss (P : Type → Type) (H : Type) where
  write_body : H → Bytes → Bool → P (Result Unit × H)
  finish : H → P (Result MissFinishType)
  drop : H → P Unit

/-- `impl HandleMiss for DiskMissHandler`, and its `Drop`. -/
def disk_miss : HandleMiss Prog DiskMissHandler :=
  ⟨DiskMissHandler.write_body, DiskMissHandler.finish, DiskMissHandler.drop⟩

/-- What the owner of a handler does with it. After a write the owner may go by what the write
gave, and may go on when it failed. -/
inductive Course
  | finish
  | drop
  | write_body (data : Bytes) (is_eof : Bool) (after : Result Unit → Course)

/-- What the owner gets: the results of the writes, and the result of the finish if there is one. -/
structure Gains where
  writes : List (Result Unit)
  finish : Option (Result MissFinishType)
  deriving DecidableEq

def Course.program {P : Type → Type} [Monad P] {H : Type} (i : HandleMiss P H) :
    Course → H → P Gains
  | .finish, h => do return ⟨[], some (← i.finish h)⟩
  | .drop, h => do
    i.drop h
    return ⟨[], none⟩
  | .write_body data is_eof after, h => do
    let x ← i.write_body h data is_eof
    let rest ← (after x.1).program i x.2
    return ⟨x.1 :: rest.writes, rest.finish⟩

end edge_cdn_store.miss_handlers
