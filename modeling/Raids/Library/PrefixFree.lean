import Mathlib.Data.List.Basic

namespace PrefixFree

variable {α β γ : Type*}

/-- The output of an encoder can be split off from what follows it. -/
def IsPrefixFree (encode : α → List β) : Prop :=
  ∀ a b rest rest', encode a ++ rest = encode b ++ rest' → encode a = encode b ∧ rest = rest'

variable {encode : α → List β} {encode' : α → List β}

/-- The same word can always be split off. -/
theorem isPrefixFree_const (word : List β) : IsPrefixFree fun _ : α => word :=
  fun _ _ _ _ same => ⟨rfl, List.append_cancel_left same⟩

theorem IsPrefixFree.comp (free : IsPrefixFree encode) (key : γ → α) :
    IsPrefixFree fun c => encode (key c) := fun c c' => free (key c) (key c')

/-- Two encodings behind each other are split off one by one. -/
theorem IsPrefixFree.append (free : IsPrefixFree encode) (free' : IsPrefixFree encode') :
    IsPrefixFree fun a => encode a ++ encode' a := by
  intro a b rest rest' same
  dsimp only at same ⊢
  rw [List.append_assoc, List.append_assoc] at same
  obtain ⟨first, same⟩ := free a b _ _ same
  obtain ⟨second, same⟩ := free' a b _ _ same
  exact ⟨by rw [first, second], same⟩

theorem IsPrefixFree.ite (p : Prop) [Decidable p] (free : IsPrefixFree encode)
    (free' : IsPrefixFree encode') : IsPrefixFree fun a => if p then encode a else encode' a := by
  by_cases holds : p
  · simpa only [if_pos holds] using free
  · simpa only [if_neg holds] using free'

/-- As many encodings are the same one by one. -/
theorem IsPrefixFree.flatMap (free : IsPrefixFree encode) {l l' : List α} {rest rest' : List β}
    (length : l.length = l'.length)
    (same : l.flatMap encode ++ rest = l'.flatMap encode ++ rest') :
    l.map encode = l'.map encode ∧ rest = rest' := by
  induction l generalizing l' with
  | nil =>
      rw [List.eq_nil_of_length_eq_zero length.symm] at same ⊢
      exact ⟨rfl, same⟩
  | cons a l ih =>
      obtain ⟨b, l', rfl⟩ := List.exists_cons_of_length_eq_add_one length.symm
      rw [List.flatMap_cons, List.flatMap_cons, List.append_assoc, List.append_assoc] at same
      obtain ⟨first, same⟩ := free a b _ _ same
      obtain ⟨others, same⟩ := ih (Nat.succ.inj length) same
      exact ⟨by rw [List.map_cons, List.map_cons, first, others], same⟩

end PrefixFree
