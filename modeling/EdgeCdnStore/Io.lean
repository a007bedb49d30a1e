-- The calls that the cache makes: the file system, the clock and the metrics.
-- A call is one step. The operating system is free to choose, at each call,
-- whether it fails and how far it came, what the clock says, and how many
-- bytes a read or a round of a copy moves. A write takes effect when it is awaited; the
-- pool of threads that it may be left to is in `write_pools` and `pending_writes`.
import EdgeCdnStore.Programs
import EdgeCdnStore.FileTree

open edge_cdn_store.programs edge_cdn_store.file_tree

namespace edge_cdn_store.io

abbrev Bytes := List UInt8

/-- An absolute path, as its components. -/
abbrev PathBuf := List (List Char)

/-- A path as `display()` shows it. -/
def display (p : PathBuf) : String := "/" ++ "/".intercalate (p.map String.ofList)

inductive ErrorKind
  | NotFound
  | NotADirectory
  | IsADirectory
  | DirectoryNotEmpty
  | Other
  deriving DecidableEq, Repr

/-- An error of the operating system, with the text that it displays. -/
structure IoError where
  kind : ErrorKind
  text : String
  deriving DecidableEq, Repr

instance : ToString IoError := ⟨IoError.text⟩

def notFound : IoError := ⟨.NotFound, "No such file or directory (os error 2)"⟩
def notADirectory : IoError := ⟨.NotADirectory, "Not a directory (os error 20)"⟩
def isADirectory : IoError := ⟨.IsADirectory, "Is a directory (os error 21)"⟩
def directoryNotEmpty : IoError := ⟨.DirectoryNotEmpty, "Directory not empty (os error 39)"⟩

/-! ## The metrics -/

/-- The counters that only grow. -/
inductive Counter
  | lookup_hits
  | served_hits
  | misses
  | inserts
  | purge_attempts
  | evictions
  | evicted_bytes
  deriving DecidableEq, Repr

/-- `CacheMetrics`: the counters, and the gauge `size_bytes`. The gauge of the source is an `i64`
that wraps; here it stands unwrapped, and a restart reads it through `as_i64`. -/
structure CacheMetrics where
  counter : Counter → Nat
  size_bytes : Int

/-- `CacheMetrics::new`: every counter at zero. -/
def CacheMetrics.new (size_bytes : Int) : CacheMetrics := ⟨fun _ => 0, size_bytes⟩

def CacheMetrics.inc_by (m : CacheMetrics) (c : Counter) (n : Nat) : CacheMetrics :=
  { m with counter := Function.update m.counter c (m.counter c + n) }

def CacheMetrics.add (m : CacheMetrics) (n : Int) : CacheMetrics :=
  { m with size_bytes := m.size_bytes + n }

/-! ## The calls -/

inductive Io
  | create_dir_all (p : PathBuf)
  | read (p : PathBuf)
  | open_file (p : PathBuf)
  | open_append (p : PathBuf)
  | create_file (p : PathBuf)
  | file_len (f : Nat)
  | read_file (f n : Nat)
  | seek_file (f pos : Nat)
  | write_all (f : Nat) (d : Bytes)
  | flush (f : Nat)
  | copy_rounds
  | copy_some (src dst : Nat)
  | copy_rest (src dst : Nat)
  | write (p : PathBuf) (d : Bytes)
  | rename (p q : PathBuf)
  | metadata (p : PathBuf)
  | exists_path (p : PathBuf)
  | remove_file (p : PathBuf)
  | remove_dir (p : PathBuf)
  | now
  | process_id
  | join_order
  | inc_by (c : Counter) (n : Nat)
  | size_bytes_add (n : Int)
  | size_bytes_sub (n : Int)
  deriving DecidableEq

@[reducible] def Io.Reply : Io → Type
  | .create_dir_all _ => Except IoError Unit
  | .read _ => Except IoError Bytes
  | .open_file _ => Except IoError Nat
  | .open_append _ => Except IoError Nat
  | .create_file _ => Except IoError Nat
  | .file_len _ => Except IoError Nat
  | .read_file _ _ => Except IoError Bytes
  | .seek_file _ _ => Except IoError Unit
  | .write_all _ _ => Except IoError Unit
  | .flush _ => Except IoError Unit
  | .copy_rounds => Nat
  | .copy_some _ _ => Except IoError Unit
  | .copy_rest _ _ => Except IoError Unit
  | .write _ _ => Except IoError Unit
  | .rename _ _ => Except IoError Unit
  | .metadata _ => Except IoError Nat
  | .exists_path _ => Bool
  | .remove_file _ => Except IoError Unit
  | .remove_dir _ => Except IoError Unit
  | .now => Int
  | .process_id => Nat
  | .join_order => Nat
  | .inc_by _ _ => Unit
  | .size_bytes_add _ => Unit
  | .size_bytes_sub _ => Unit

abbrev Prog (α : Type) := Program Io Io.Reply α

/-- An open file: its number, which outlives its path, and the cursor. -/
structure OpenFile where
  ino : Nat
  pos : Nat
  deriving DecidableEq, Repr

/-- All that the calls read and change. -/
structure World where
  tree : FileTree (List Char) UInt8
  files : Nat → OpenFile
  opened : Nat
  metrics : CacheMetrics
  pid : Nat

/-- A call that fails. `reached` is `none` when the call changed nothing, and `some n` when
it opened its file and moved `n` bytes before it failed. -/
structure Fault where
  error : IoError
  reached : Option Nat
  deriving DecidableEq, Repr

/-- What the operating system chooses at one call. The clock counts nanoseconds from the
Unix epoch, and may stand before it. -/
structure Choice where
  fault : Option Fault
  now : Int
  amount : Nat
  deriving DecidableEq, Repr

/-- A choice with no fault. -/
def Calm (c : Choice) : Prop := c.fault = none

instance (c : Choice) : Decidable (Calm c) := inferInstanceAs (Decidable (_ = _))

/-- A choice with nothing special about it. -/
def plain : Choice := ⟨none, 0, 0⟩

/-- The same choice with no fault. -/
def Choice.calm (c : Choice) : Choice := { c with fault := none }

/-- A call that, when it fails, changes nothing. -/
def Choice.guard {α : Type} (c : Choice) (w : World) (r : Except IoError α × World) :
    Except IoError α × World :=
  match c.fault with
  | some f => (.error f.error, w)
  | none => r

def World.setTree (w : World) (t : FileTree (List Char) UInt8) : World := { w with tree := t }

def World.setMetrics (w : World) (m : CacheMetrics) : World := { w with metrics := m }

/-- A new handle on file `ino`. -/
def World.openIno (w : World) (ino : Nat) : World :=
  { w with files := Function.update w.files w.opened ⟨ino, 0⟩, opened := w.opened + 1 }

def World.setPos (w : World) (f pos : Nat) : World :=
  { w with files := Function.update w.files f { w.files f with pos := pos } }

/-- The bytes from the cursor of a handle to the end of its file. -/
def World.rest (w : World) (f : Nat) : Bytes := (w.tree.data (w.files f).ino).drop (w.files f).pos

/-- Bytes written over old ones from a position on. -/
def overwrite (old : Bytes) (pos : Nat) (d : Bytes) : Bytes :=
  old.take pos ++ List.replicate (pos - old.length) 0 ++ d ++ old.drop (pos + d.length)

/-- Move up to `n` bytes from the cursor of one handle to the cursor of another. -/
def World.transfer (w : World) (src dst n : Nat) : World :=
  let chunk := (w.rest src).take n
  let s := w.files src
  let d := w.files dst
  let w1 := w.setTree (w.tree.setData d.ino (overwrite (w.tree.data d.ino) d.pos chunk))
  (w1.setPos src (s.pos + chunk.length)).setPos dst (d.pos + chunk.length)

/-- Add bytes at the end of the file of a handle. -/
def World.append (w : World) (f : Nat) (d : Bytes) : World :=
  let i := (w.files f).ino
  w.setTree (w.tree.setData i (w.tree.data i ++ d))

/-- The error of a path that cannot be opened. -/
def openError (t : FileTree (List Char) UInt8) (p : PathBuf) : IoError :=
  if t.node p = some .dir then isADirectory else notFound

/-- The operating system, answering one call. The cache renames files only, so a rename of
a directory is an error here. A `write_all` that returns has reached its file: tokio leaves
the bytes to a pool of threads, and this is the pool that is through with them by the next call.
`pending_writes.pooled` is any other. -/
def answer : (e : Io) → Choice → World → e.Reply × World
  | .create_dir_all p, c, w => c.guard w
      (if (w.tree.mkdirs p).node p = some .dir then .ok () else .error notADirectory,
        w.setTree (w.tree.mkdirs p))
  | .read p, c, w => c.guard w
      (match w.tree.content p with
        | some d => .ok d
        | none => .error (openError w.tree p), w)
  | .open_file p, c, w => c.guard w
      (match w.tree.node p with
        | some (.file i) => (.ok w.opened, w.openIno i)
        | _ => (.error (openError w.tree p), w))
  | .open_append p, c, w => c.guard w
      (match w.tree.node p with
        | some (.file i) => (.ok w.opened, w.openIno i)
        | _ => (.error (openError w.tree p), w))
  | .create_file p, c, w => c.guard w
      (if w.tree.CanCreate p then
        match (w.tree.create p).node p with
        | some (.file i) => (.ok w.opened, (w.setTree (w.tree.create p)).openIno i)
        | _ => (.error (openError w.tree p), w)
      else (.error (openError w.tree p), w))
  | .file_len f, c, w => c.guard w (.ok (w.tree.data (w.files f).ino).length, w)
  | .read_file f n, c, w => c.guard w
      -- at least one byte while any are left, and at most `n`
      (let d := (w.rest f).take (min n (c.amount + 1))
      (.ok d, w.setPos f ((w.files f).pos + d.length)))
  | .seek_file f pos, c, w => c.guard w (.ok (), w.setPos f pos)
  | .write_all f d, c, w =>
      match c.fault with
      | none => (.ok (), w.append f d)
      | some ⟨e, none⟩ => (.error e, w)
      | some ⟨e, some n⟩ => (.error e, w.append f (d.take n))
  | .flush _, c, w => c.guard w (.ok (), w)
  | .copy_rounds, c, w => (c.amount, w)
  | .copy_some src dst, c, w =>
      match c.fault with
      | none => (.ok (), w.transfer src dst c.amount)
      | some ⟨e, none⟩ => (.error e, w)
      | some ⟨e, some n⟩ => (.error e, w.transfer src dst n)
  | .copy_rest src dst, c, w =>
      match c.fault with
      | none => (.ok (), w.transfer src dst (w.rest src).length)
      | some ⟨e, none⟩ => (.error e, w)
      | some ⟨e, some n⟩ => (.error e, w.transfer src dst n)
  | .write p d, c, w =>
      match c.fault with
      | none =>
        if w.tree.CanCreate p then (.ok (), w.setTree (w.tree.put p d))
        else (.error (openError w.tree p), w)
      | some ⟨e, none⟩ => (.error e, w)
      | some ⟨e, some n⟩ =>
        if w.tree.CanCreate p then (.error e, w.setTree (w.tree.put p (d.take n)))
        else (.error e, w)
  | .rename p q, c, w => c.guard w
      (match w.tree.node p with
        | some (.file _) =>
          if w.tree.CanMove p q then (.ok (), w.setTree (w.tree.move p q))
          else if p = q then (.ok (), w)
          else (.error (openError w.tree q), w)
        | _ => (.error (openError w.tree p), w))
  | .metadata p, c, w => c.guard w
      (match w.tree.node p with
        | some (.file i) => .ok (w.tree.data i).length
        | some .dir => .ok 0
        | none => .error notFound, w)
  | .exists_path p, c, w => (c.fault.isNone && (w.tree.node p).isSome, w)
  | .remove_file p, c, w => c.guard w
      (match w.tree.node p with
        | some (.file _) => (.ok (), w.setTree (w.tree.remove p))
        | some .dir => (.error isADirectory, w)
        | none => (.error notFound, w))
  | .remove_dir p, c, w => c.guard w
      (match w.tree.node p with
        | some .dir =>
          if Childless w.tree.nodes p then (.ok (), w.setTree (w.tree.remove p))
          else (.error directoryNotEmpty, w)
        | some (.file _) => (.error notADirectory, w)
        | none => (.error notFound, w))
  | .now, c, w => (c.now, w)
  | .process_id, _, w => (w.pid, w)
  | .join_order, c, w => (c.amount, w)
  | .inc_by m n, _, w => ((), w.setMetrics (w.metrics.inc_by m n))
  | .size_bytes_add n, _, w => ((), w.setMetrics (w.metrics.add n))
  | .size_bytes_sub n, _, w => ((), w.setMetrics (w.metrics.add (-n)))

/-! ## The calls as programs -/

def call (e : Io) : Prog e.Reply := Program.perform e

def fs.create_dir_all (p : PathBuf) : Prog (Except IoError Unit) := call (.create_dir_all p)
def fs.read (p : PathBuf) : Prog (Except IoError Bytes) := call (.read p)
def fs.write (p : PathBuf) (d : Bytes) : Prog (Except IoError Unit) := call (.write p d)
def fs.rename (p q : PathBuf) : Prog (Except IoError Unit) := call (.rename p q)
def fs.metadata (p : PathBuf) : Prog (Except IoError Nat) := call (.metadata p)
def fs.path_exists (p : PathBuf) : Prog Bool := call (.exists_path p)
def fs.remove_file (p : PathBuf) : Prog (Except IoError Unit) := call (.remove_file p)
def fs.remove_dir (p : PathBuf) : Prog (Except IoError Unit) := call (.remove_dir p)

def File.open_read (p : PathBuf) : Prog (Except IoError Nat) := call (.open_file p)
def File.open_append (p : PathBuf) : Prog (Except IoError Nat) := call (.open_append p)
def File.create (p : PathBuf) : Prog (Except IoError Nat) := call (.create_file p)
def File.len (f : Nat) : Prog (Except IoError Nat) := call (.file_len f)
def File.read (f n : Nat) : Prog (Except IoError Bytes) := call (.read_file f n)
def File.seek (f pos : Nat) : Prog (Except IoError Unit) := call (.seek_file f pos)
def File.write_all (f : Nat) (d : Bytes) : Prog (Except IoError Unit) := call (.write_all f d)
def File.flush (f : Nat) : Prog (Except IoError Unit) := call (.flush f)

def now : Prog Int := call .now
def process_id : Prog Nat := call .process_id
def inc (c : Counter) : Prog Unit := call (.inc_by c 1)
def inc_by (c : Counter) (n : Nat) : Prog Unit := call (.inc_by c n)
def size_bytes_add (n : Int) : Prog Unit := call (.size_bytes_add n)
def size_bytes_sub (n : Int) : Prog Unit := call (.size_bytes_sub n)

/-- The rounds of a copy, and after them what is left of the source. -/
def copy_loop (src dst : Nat) : Nat → Prog (Except IoError Unit)
  | 0 => call (.copy_rest src dst)
  | n + 1 => do
    match ← call (.copy_some src dst) with
    | .error e => return .error e
    | .ok () => copy_loop src dst n

/-- `tokio::io::copy`: all that is left of one file goes to another, in any number of
rounds of any size. -/
def copy (src dst : Nat) : Prog (Except IoError Unit) := do
  copy_loop src dst (← call .copy_rounds)

/-- `join!` of three calls of one step each: they run in any order. -/
def join3 {α β γ : Type} (a : Prog α) (b : Prog β) (c : Prog γ) : Prog (α × β × γ) := do
  match (← call .join_order) % 6 with
  | 0 => do let x ← a; let y ← b; let z ← c; return (x, y, z)
  | 1 => do let x ← a; let z ← c; let y ← b; return (x, y, z)
  | 2 => do let y ← b; let x ← a; let z ← c; return (x, y, z)
  | 3 => do let y ← b; let z ← c; let x ← a; return (x, y, z)
  | 4 => do let z ← c; let x ← a; let y ← b; return (x, y, z)
  | _ => do let z ← c; let y ← b; let x ← a; return (x, y, z)

end edge_cdn_store.io
