import Mathlib.Data.List.Basic

/-! Additive stream ciphers over any alphabet: position `n` of a text is combined with
position `n` of a keystream. Nothing is assumed of the combining operation but, where
it matters, that combining twice with the same symbol gives the text back. -/
namespace Keystream
variable {α : Type*} (op : α → α → α) (ks : Nat → α)

/-- Combine a text that starts at position `n` with the keystream. -/
def mask : Nat → List α → List α
  | _, [] => []
  | n, a :: as => op a (ks n) :: mask (n + 1) as

@[simp] theorem mask_nil (n : Nat) : mask op ks n [] = [] := rfl

@[simp] theorem mask_cons (n : Nat) (a : α) (as : List α) :
    mask op ks n (a :: as) = op a (ks n) :: mask op ks (n + 1) as := rfl

@[simp] theorem length_mask (n : Nat) (as : List α) : (mask op ks n as).length = as.length := by
  induction as generalizing n with
  | nil => rfl
  | cons a as ih => simp [ih]

/-- A text given in pieces is masked piece by piece, each from its own position. -/
theorem mask_append (n : Nat) (as bs : List α) :
    mask op ks n (as ++ bs) = mask op ks n as ++ mask op ks (n + as.length) bs := by
  induction as generalizing n with
  | nil => simp
  | cons a as ih => simp [ih, Nat.add_assoc, Nat.add_comm 1]

/-- Position by position. -/
theorem mask_eq_mapIdx (n : Nat) (as : List α) :
    mask op ks n as = as.mapIdx fun i a => op a (ks (n + i)) := by
  induction as generalizing n with
  | nil => rfl
  | cons a as ih =>
    rw [mask_cons, ih, List.mapIdx_cons]
    congr 2
    funext i b
    rw [Nat.add_assoc, Nat.add_comm 1]

section Involutive
variable {op}

theorem mask_mask (h : ∀ a k, op (op a k) k = a) (n : Nat) (as : List α) :
    mask op ks n (mask op ks n as) = as := by
  induction as generalizing n with
  | nil => rfl
  | cons a as ih => simp [h, ih]

end Involutive
end Keystream
