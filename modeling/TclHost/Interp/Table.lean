import Std.Data.TreeMap.Lemmas
/-! # Tables

A table maps texts to values.  The newest value of a key takes the place of the old one.
-/
namespace TclHost

/-- Keys with their values, in the order of the keys. -/
abbrev Table (α : Type) := Std.TreeMap String α

namespace Table

variable {α : Type}

def get? (t : Table α) (key : String) : Option α :=
  t[key]?

def set (t : Table α) (key : String) (v : α) : Table α :=
  t.insert key v

def keep (t : Table α) (test : String → Bool) : Table α :=
  t.filter fun key _ => test key

@[simp] theorem get?_empty (key : String) : get? (∅ : Table α) key = none := by
  simp [get?]

@[simp] theorem get?_set (t : Table α) (key other : String) (v : α) :
    (t.set key v).get? other = if other = key then some v else t.get? other := by
  simp only [get?, set, Std.TreeMap.getElem?_insert, Std.LawfulEqCmp.compare_eq_iff_eq]
  simp only [eq_comm]

@[simp] theorem get?_keep (t : Table α) (test : String → Bool) (key : String) :
    (t.keep test).get? key = if test key then t.get? key else none := by
  simp only [get?, keep, Std.TreeMap.getElem?_filter, Std.TreeMap.getKey_eq]
  cases t[key]? <;> simp [Option.pfilter]

theorem mem_keys_iff (t : Table α) (key : String) : key ∈ t.keys ↔ (t.get? key).isSome := by
  simp [get?, Std.TreeMap.mem_keys]

end Table
end TclHost
