-- Two maps, one in front of the other: what the front one has hides what the back
-- one has. The operations change one of the maps or both, and the laws say what is
-- seen after each.
import Mathlib

namespace edge_cdn_store.overlay

variable {K V : Type} [DecidableEq K]

/-- Two maps, of which the first hides the second. -/
structure Layers (K V : Type) where
  front : K → Option V
  back : K → Option V

namespace Layers

/-- What is seen of a key. -/
def view (l : Layers K V) (k : K) : Option V := (l.front k).or (l.back k)

/-- A new value in front. -/
def put (l : Layers K V) (k : K) (v : V) : Layers K V :=
  { l with front := Function.update l.front k (some v) }

/-- The front value goes. -/
def uncover (l : Layers K V) (k : K) : Layers K V :=
  { l with front := Function.update l.front k none }

/-- Both values go. -/
def erase (l : Layers K V) (k : K) : Layers K V :=
  ⟨Function.update l.front k none, Function.update l.back k none⟩

/-- Each map that has a value for the key has another one. -/
def alter (l : Layers K V) (k : K) (f : V → V) : Layers K V :=
  ⟨Function.update l.front k ((l.front k).map f), Function.update l.back k ((l.back k).map f)⟩

@[simp] theorem view_put (l : Layers K V) (k : K) (v : V) :
    (l.put k v).view = Function.update l.view k (some v) := by
  funext j
  unfold view put
  by_cases h : j = k
  · subst h
    simp
  · simp [h]

@[simp] theorem view_uncover (l : Layers K V) (k : K) :
    (l.uncover k).view = Function.update l.view k (l.back k) := by
  funext j
  unfold view uncover
  by_cases h : j = k
  · subst h
    simp
  · simp [h]

@[simp] theorem view_erase (l : Layers K V) (k : K) :
    (l.erase k).view = Function.update l.view k none := by
  funext j
  unfold view erase
  by_cases h : j = k
  · subst h
    simp
  · simp [h]

@[simp] theorem view_alter (l : Layers K V) (k : K) (f : V → V) :
    (l.alter k f).view = Function.update l.view k ((l.view k).map f) := by
  funext j
  unfold view alter
  by_cases h : j = k
  · subst h
    simp only [Function.update_self]
    cases l.front j <;> simp
  · simp [h]

omit [DecidableEq K] in
/-- A key is seen when either map has it. -/
theorem isSome_view (l : Layers K V) (k : K) :
    (l.view k).isSome = ((l.front k).isSome || (l.back k).isSome) := by
  unfold view
  cases l.front k <;> simp

end Layers

end edge_cdn_store.overlay
