import Mathlib.Data.List.Basic
import Mathlib.Tactic.Common

/-! # Codes that are read back from the front

A value and what follows it are determined by the code of the value with the rest behind
it. Pairs, counted lists and texts with their length in front have such codes when their
parts do.
-/
namespace Redo.Library

variable {α β γ : Type*}

def CodeOn (p : α → Prop) (enc : α → List β) : Prop :=
  ∀ a b s t, p a → p b → enc a ++ s = enc b ++ t → a = b ∧ s = t

variable {p : α → Prop} {q : γ → Prop} {enc : α → List β} {enc' : γ → List β}

theorem CodeOn.injOn (h : CodeOn p enc) {a b : α} (ha : p a) (hb : p b) (he : enc a = enc b) :
    a = b :=
  (h a b [] [] ha hb (by rw [he])).1

theorem CodeOn.of_length {n : ℕ} (hlen : ∀ a, (enc a).length = n)
    (inj : ∀ a b, p a → p b → enc a = enc b → a = b) : CodeOn p enc := by
  intro a b s t ha hb he
  obtain ⟨hcode, hrest⟩ := List.append_inj he ((hlen a).trans (hlen b).symm)
  exact ⟨inj a b ha hb hcode, hrest⟩

theorem CodeOn.pair (h : CodeOn p enc) (h' : CodeOn q enc') :
    CodeOn (fun x : α × γ => p x.1 ∧ q x.2) fun x => enc x.1 ++ enc' x.2 := by
  rintro ⟨a, c⟩ ⟨b, d⟩ s t ⟨ha, hc⟩ ⟨hb, hd⟩ he
  simp only [List.append_assoc] at he
  obtain ⟨rfl, hrest⟩ := h a b _ _ ha hb he
  obtain ⟨rfl, hend⟩ := h' c d s t hc hd hrest
  exact ⟨rfl, hend⟩

/-- A code of another type, by a function that loses nothing. -/
theorem CodeOn.comp (h : CodeOn p enc) {r : γ → Prop} {f : γ → α} (maps : ∀ c, r c → p (f c))
    (inj : Function.Injective f) : CodeOn r fun c => enc (f c) := by
  intro c d s t hc hd he
  obtain ⟨hf, hrest⟩ := h _ _ s t (maps c hc) (maps d hd) he
  exact ⟨inj hf, hrest⟩

/-- Texts with their length in front. -/
theorem CodeOn.withLength {n : ℕ} {size : ℕ → List β} (h : CodeOn (· < n) size) :
    CodeOn (fun x : List β => x.length < n) fun x => size x.length ++ x := by
  intro x y s t hx hy he
  simp only [List.append_assoc] at he
  obtain ⟨hlen, hrest⟩ := h _ _ _ _ hx hy he
  exact List.append_inj hrest hlen

theorem CodeOn.flatMap (h : CodeOn p enc) {l l' : List α} {s t : List β} (hlen : l.length = l'.length)
    (hl : ∀ a ∈ l, p a) (hl' : ∀ a ∈ l', p a) (he : l.flatMap enc ++ s = l'.flatMap enc ++ t) :
    l = l' ∧ s = t := by
  induction l generalizing l' with
  | nil =>
    cases l' with
    | nil => exact ⟨rfl, he⟩
    | cons b l' => cases hlen
  | cons a l ih =>
    cases l' with
    | nil => cases hlen
    | cons b l' =>
      simp only [List.flatMap_cons, List.append_assoc] at he
      obtain ⟨rfl, hrest⟩ := h a b _ _ (hl a List.mem_cons_self) (hl' b List.mem_cons_self) he
      obtain ⟨rfl, hend⟩ := ih (Nat.succ.inj hlen) (fun c hc => hl c (List.mem_cons_of_mem _ hc))
        (fun c hc => hl' c (List.mem_cons_of_mem _ hc)) hrest
      exact ⟨rfl, hend⟩

/-- Lists with their number of elements in front. -/
theorem CodeOn.counted {n : ℕ} {size : ℕ → List β} (hsize : CodeOn (· < n) size) (h : CodeOn p enc) :
    CodeOn (fun l : List α => l.length < n ∧ ∀ a ∈ l, p a)
      fun l => size l.length ++ l.flatMap enc := by
  intro l l' s t hl hl' he
  simp only [List.append_assoc] at he
  obtain ⟨hlen, hrest⟩ := hsize _ _ _ _ hl.1 hl'.1 he
  exact h.flatMap hlen hl.2 hl'.2 hrest

/-- The lowest bytes of a number, the lowest first. -/
def lowBytes : ℕ → ℕ → List UInt8
  | 0, _ => []
  | k + 1, n => UInt8.ofNat n :: lowBytes k (n / 256)

theorem lowBytes_length (k n : ℕ) : (lowBytes k n).length = k := by
  induction k generalizing n with
  | zero => rfl
  | succ k ih => rw [lowBytes, List.length_cons, ih]

/-- The eight bytes of a 64-bit number. -/
def leBytes (n : ℕ) : List UInt8 := lowBytes 8 n

theorem leBytes_codeOn : CodeOn (· < 18446744073709551616) leBytes := by
  apply CodeOn.of_length (lowBytes_length 8)
  intro a b ha hb he
  have hbyte : ∀ {m n : ℕ}, UInt8.ofNat m = UInt8.ofNat n → m % 256 = n % 256 := by
    intro m n h
    simpa using congrArg UInt8.toNat h
  simp only [lowBytes, List.cons.injEq, and_true] at he
  obtain ⟨h0, h1, h2, h3, h4, h5, h6, h7⟩ := he
  have h0 := hbyte h0
  have h1 := hbyte h1
  have h2 := hbyte h2
  have h3 := hbyte h3
  have h4 := hbyte h4
  have h5 := hbyte h5
  have h6 := hbyte h6
  have h7 := hbyte h7
  omega

end Redo.Library
