import Mathlib.Data.List.Basic
import Mathlib.Data.Nat.ModEq

/-! Memory addressed by natural numbers, and a stream of cells laid out in it
circularly: stream position `p` lives at address `p % size`, until the position
one revolution later is stored. -/
namespace CircularMemory
variable {α : Type}

def store (mem : Nat → α) (start : Nat) (xs : List α) : Nat → α :=
  fun i => if start ≤ i then (xs[i - start]?).getD (mem i) else mem i

def load (mem : Nat → α) (start n : Nat) : List α :=
  (List.range n).map (fun i => mem (start + i))

theorem store_inside (mem : Nat → α) (start : Nat) (xs : List α) {i : Nat} (h : i < xs.length) :
    store mem start xs (start + i) = xs[i] := by
  simp [store,h]

theorem store_outside (mem : Nat → α) (start : Nat) (xs : List α) {i : Nat}
    (h : i < start ∨ start + xs.length ≤ i) : store mem start xs i = mem i := by
  unfold store
  split
  · rw [List.getElem?_eq_none (by omega)]
    rfl
  · rfl

@[simp] theorem store_nil (mem : Nat → α) (start : Nat) : store mem start [] = mem := by
  funext i
  exact store_outside mem start [] (by simp; omega)

theorem store_store (mem : Nat → α) (start : Nat) (xs ys : List α) :
    store (store mem start xs) (start + xs.length) ys = store mem start (xs ++ ys) := by
  funext i
  unfold store
  by_cases low : start ≤ i
  · by_cases high : start + xs.length ≤ i
    · have past : xs[i - start]? = none := List.getElem?_eq_none (by omega)
      rw [if_pos high,if_pos low,if_pos low,past,List.getElem?_append_right (by omega),Nat.sub_add_eq]
      rfl
    · rw [if_neg high,if_pos low,if_pos low,List.getElem?_append_left (by omega)]
  · rw [if_neg (by omega),if_neg low,if_neg low]

@[simp] theorem length_load (mem : Nat → α) (start n : Nat) : (load mem start n).length = n := by
  simp [load]

theorem load_eq {mem : Nat → α} {start : Nat} {xs : List α}
    (cells : ∀ i (h : i < xs.length), mem (start + i) = xs[i]) :
    load mem start xs.length = xs := by
  apply List.ext_getElem
  · simp
  · intro i left right
    simpa [load] using cells i right

theorem address_ne {size p q : Nat} (before : p < q) (near : q < p + size) :
    p % size ≠ q % size := by
  intro equal
  have gap : (q - p) % size = 0 := Nat.sub_mod_eq_zero_of_mod_eq equal.symm
  rw [Nat.mod_eq_of_lt (by omega)] at gap
  omega

theorem address_add {size p i : Nat} (fits : p % size + i < size) :
    (p + i) % size = p % size + i := by
  rw [Nat.add_mod,Nat.mod_eq_of_lt (by omega : i < size),Nat.mod_eq_of_lt fits]

/-- The cells `xs` of the stream from position `p` on are in memory, those
excepted that a store below position `top` may have replaced. -/
def Holds (mem : Nat → α) (size top p : Nat) (xs : List α) : Prop :=
  ∀ i (h : i < xs.length), top ≤ p + i + size → mem ((p + i) % size) = xs[i]

section
variable {mem : Nat → α} {size top top' p q : Nat} {xs ys : List α}

theorem Holds.nil : Holds mem size top p [] := by
  intro _ h
  exact absurd h (by simp)

theorem Holds.mono (holds : Holds mem size top p xs) (later : top ≤ top') :
    Holds mem size top' p xs := by
  intro i h near
  exact holds i h (later.trans near)

theorem Holds.store_after (holds : Holds mem size top p xs) (after : p + xs.length ≤ q)
    (fits : q % size + ys.length ≤ size) (later : top ≤ top') (covered : q + ys.length ≤ top') :
    Holds (store mem (q % size) ys) size top' p xs := by
  intro i h near
  rw [store_outside,holds i h (later.trans near)]
  by_contra inside
  push Not at inside
  obtain ⟨j,hj⟩ := Nat.exists_eq_add_of_le inside.1
  have address : (q + j) % size = q % size + j := address_add (by omega)
  exact address_ne (show p + i < q + j by omega) (by omega) (hj.trans address.symm)

theorem Holds.append (holds : Holds mem size top q xs)
    (fits : q % size + xs.length + ys.length ≤ size) (later : top ≤ top') :
    Holds (store mem (q % size + xs.length) ys) size top' q (xs ++ ys) := by
  intro i h near
  simp only [List.length_append] at h
  rw [address_add (by omega)]
  by_cases old : i < xs.length
  · rw [store_outside _ _ _ (Or.inl (by omega)),← address_add (by omega),
      holds i old (later.trans near),List.getElem_append_left old]
  · obtain ⟨j,rfl⟩ := Nat.exists_eq_add_of_le (Nat.le_of_not_lt old)
    rw [← Nat.add_assoc,store_inside _ _ _ (by omega),
      List.getElem_append_right (by omega)]
    simp

/-- What is still guaranteed from the first cell on can be loaded. -/
theorem Holds.cell (holds : Holds mem size top p xs) (near : top ≤ p + size)
    (fits : p % size + xs.length ≤ size) {i : Nat} (h : i < xs.length) :
    mem (p % size + i) = xs[i] := by
  rw [← address_add (by omega)]
  exact holds i h (by omega)

theorem Holds.left (holds : Holds mem size top p (xs ++ ys)) : Holds mem size top p xs := by
  intro i h near
  rw [holds i (by simp only [List.length_append]; omega) near,List.getElem_append_left h]

theorem Holds.right (holds : Holds mem size top p (xs ++ ys)) :
    Holds mem size top (p + xs.length) ys := by
  intro i h near
  have cell := holds (xs.length + i) (by simp only [List.length_append]; omega) (by omega)
  rw [List.getElem_append_right (by omega)] at cell
  simpa only [Nat.add_assoc,Nat.add_sub_cancel_left] using cell

theorem Holds.load (holds : Holds mem size top p xs) (near : top ≤ p + size)
    (fits : p % size + xs.length ≤ size) : CircularMemory.load mem (p % size) xs.length = xs := by
  apply load_eq
  intro i h
  exact holds.cell near fits h

end
end CircularMemory
