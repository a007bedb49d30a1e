-- The tiered storage of `tiered/mod.rs`: a primary storage, and maybe a second
-- one behind it. As deployed it has the disk cache and nothing else.
import EdgeCdnStore.DiskCache

open edge_cdn_store.programs edge_cdn_store.io edge_cdn_store.logger edge_cdn_store.disk_cache

namespace edge_cdn_store.tiered

/-- `Storage`, for keys `K`, metadata `M`, and the handlers of a miss and of a hit. Its
functions are programs of any kind `P`. -/
structure Storage (P : Type → Type) (K M Miss Hit : Type) where
  lookup : K → P (Result (Option (M × Hit)))
  get_miss_handler : K → M → P (Result Miss)
  purge : K → PurgeType → P (Result Bool)
  update_meta : K → M → P (Result Bool)

/-- How writes should propagate when an origin misses. -/
inductive WritePolicy
  | PrimaryOnly
  | WriteThroughBoth
  deriving DecidableEq, Repr

structure TieredStorage (P : Type → Type) (K M Miss Hit : Type) where
  primary : Storage P K M Miss Hit
  secondary : Option (Storage P K M Miss Hit)
  write_policy : WritePolicy

section
variable {P : Type → Type} [Monad P] {K M Miss Hit : Type}

namespace TieredStorage

/-- Try primary, then secondary. -/
def lookup (self : TieredStorage P K M Miss Hit) (key : K) : P (Result (Option (M × Hit))) := do
  match ← self.primary.lookup key with
  | .error e => return .error e
  | .ok (some hit) => return .ok (some hit)
  | .ok none =>
    match self.secondary with
    | none => return .ok none
    | some secondary => secondary.lookup key

/-- Only the primary is written, whatever the policy says. -/
def get_miss_handler (self : TieredStorage P K M Miss Hit) (key : K) (cache_meta : M) :
    P (Result Miss) := do
  match ← self.primary.get_miss_handler key cache_meta with
  | .error e => return .error e
  | .ok primary_miss =>
    match self.write_policy, self.secondary with
    | .PrimaryOnly, _ => return .ok primary_miss
    | .WriteThroughBoth, none => return .ok primary_miss
    | .WriteThroughBoth, some _sec => return .ok primary_miss

/-- A purge of one storage where an error counts as nothing found. -/
def purge_or_default (storage : Storage P K M Miss Hit) (key : K) (purge_type : PurgeType) :
    P Bool := do
  match ← storage.purge key purge_type with
  | .ok existed => return existed
  | .error _ => return false

/-- An eviction leaves the secondary alone. -/
def purge (self : TieredStorage P K M Miss Hit) (key : K) (purge_type : PurgeType) :
    P (Result Bool) := do
  match purge_type with
  | .Eviction => return .ok (← purge_or_default self.primary key purge_type)
  | .Invalidation =>
    let existed ← purge_or_default self.primary key purge_type
    match self.secondary with
    | none => return .ok existed
    | some sec => return .ok (existed || (← purge_or_default sec key purge_type))

def update_meta (self : TieredStorage P K M Miss Hit) (key : K) (cache_meta : M) :
    P (Result Bool) := do
  match ← self.primary.update_meta key cache_meta with
  | .error e => return .error e
  | .ok updated =>
    match self.secondary with
    | none => return .ok updated
    | some sec =>
      match ← sec.update_meta key cache_meta with
      | .ok x => return .ok (updated || x)
      | .error _ => return .ok updated

/-- `impl Storage for TieredStorage` -/
def storage (self : TieredStorage P K M Miss Hit) : Storage P K M Miss Hit :=
  ⟨self.lookup, self.get_miss_handler, self.purge, self.update_meta⟩

end TieredStorage

end

variable {K M : Type} [CacheHashKey K] [CacheMeta M]

/-- `impl Storage for DiskCache` -/
def disk_storage (cache : DiskCache) : Storage Prog K M DiskMissHandler DiskHitHandler :=
  ⟨cache.lookup, cache.get_miss_handler, cache.purge, cache.update_meta⟩

/-- The deployed storage: the disk cache, no secondary, and writes to the primary only. -/
def tiered_cache (cache : DiskCache) : TieredStorage Prog K M DiskMissHandler DiskHitHandler :=
  ⟨disk_storage cache, none, .PrimaryOnly⟩

/-! ## The deployed storage is the disk cache -/

theorem tiered_cache_lookup (cache : DiskCache) (key : K) :
    (tiered_cache cache : TieredStorage Prog K M _ _).lookup key = cache.lookup key := by
  unfold TieredStorage.lookup
  conv_rhs => rw [← bind_pure (cache.lookup key)]
  congr 1
  funext r
  rcases r with _ | _ | _ <;> rfl

theorem tiered_cache_get_miss_handler (cache : DiskCache) (key : K) (cache_meta : M) :
    (tiered_cache cache).get_miss_handler key cache_meta =
      cache.get_miss_handler key cache_meta := by
  unfold TieredStorage.get_miss_handler
  conv_rhs => rw [← bind_pure (cache.get_miss_handler key cache_meta)]
  congr 1
  funext r
  rcases r with _ | _ <;> rfl

theorem tiered_cache_update_meta (cache : DiskCache) (key : K) (cache_meta : M) :
    (tiered_cache cache).update_meta key cache_meta = cache.update_meta key cache_meta := by
  unfold TieredStorage.update_meta
  conv_rhs => rw [← bind_pure (cache.update_meta key cache_meta)]
  congr 1
  funext r
  rcases r with _ | _ <;> rfl

/-- A purge of the deployed storage is a purge of the disk cache that never fails. -/
theorem tiered_cache_purge (cache : DiskCache) (key : K) (purge_type : PurgeType) :
    (tiered_cache cache : TieredStorage Prog K M _ _).purge key purge_type =
      do return .ok (← TieredStorage.purge_or_default (disk_storage cache : Storage Prog K M _ _) key
        purge_type) := by
  cases purge_type <;> rfl

end edge_cdn_store.tiered
