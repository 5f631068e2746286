import Mathlib.Logic.Basic
import Mathlib.Tactic.Common

/-! # Partial maps

A hash map seen through its lookups: a partial function with insertion and removal.  Nothing
here depends on the order in which the entries of a map are visited. -/

/-- A map from keys to values, as its lookup function. -/
def PMap (K V : Type) := K → Option V

namespace PMap

variable {K V : Type}

/-- The empty map. -/
def empty : PMap K V := fun _ => none

/-- Lookup. -/
def get (m : PMap K V) (k : K) : Option V := m k

/-- Insert, replacing an entry that is already there. -/
def insert [DecidableEq K] (m : PMap K V) (k : K) (v : V) : PMap K V :=
  fun k' => if k' = k then some v else m k'

/-- Remove an entry. -/
def erase [DecidableEq K] (m : PMap K V) (k : K) : PMap K V := fun k' => if k' = k then none else m k'

@[ext] theorem ext {m m' : PMap K V} (h : ∀ k, m.get k = m'.get k) : m = m' := funext h

@[simp] theorem get_empty (k : K) : (empty : PMap K V).get k = none := rfl

theorem get_insert [DecidableEq K] (m : PMap K V) (k k' : K) (v : V) :
    (m.insert k v).get k' = if k' = k then some v else m.get k' := rfl

@[simp] theorem get_insert_self [DecidableEq K] (m : PMap K V) (k : K) (v : V) :
    (m.insert k v).get k = some v := by simp [get_insert]

theorem get_insert_ne [DecidableEq K] (m : PMap K V) {k k' : K} (v : V) (h : k' ≠ k) :
    (m.insert k v).get k' = m.get k' := by simp [get_insert, h]

theorem get_erase_ne [DecidableEq K] (m : PMap K V) {k k' : K} (h : k' ≠ k) :
    (m.erase k).get k' = m.get k' := by simp [get, erase, h]

end PMap
