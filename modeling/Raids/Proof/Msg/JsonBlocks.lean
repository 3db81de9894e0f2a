import Raids.Construction.Msg.Json
import Raids.Proof.Msg.JsonRoundTrip

namespace Raids

section Blocks

variable {mem : JsonMem} {unwritten : Nat → RedisMsg} {b : ElementBlocks} {c : JsonBlocks}
  {elems : List RedisMsg}

theorem upTo_update (block : ElementBlock) (i : Nat) (value : RedisMsg) :
    ElementBlock.upTo { block with elem := Function.update block.elem i value } (i + 1) =
      block.upTo i ++ [value] := by
  simp only [ElementBlock.upTo, List.range_succ, List.map_append, List.map_singleton,
    Function.update_self]
  congr 1
  apply List.map_congr_left
  intro j member
  exact Function.update_of_ne (Nat.ne_of_lt (List.mem_range.mp member)) _ _

/-- The blocks in memory hold the elements in order, and as many as the sizes say. -/
structure Holds (b : ElementBlocks) (c : JsonBlocks) (elems : List RedisMsg) : Prop where
  tos : c.tos = b.blocks.length
  i : c.i = b.i
  sz : c.sz = (b.blocks.head?.map ElementBlock.size).getD 0
  copy : b.copy = elems

theorem holds_start : Holds .start ⟨0, 0, 0⟩ [] := ⟨rfl, rfl, rfl, rfl⟩

/-- An element that is written at the end of a block that is not full follows the others. -/
theorem holds_write (holds : Holds b c elems) (nonempty : b.blocks ≠ []) (value : RedisMsg) :
    Holds (b.write value) { c with i := c.i + 1 } (elems ++ [value]) := by
  obtain ⟨tos, i, sz, copy⟩ := holds
  obtain ⟨blocks, next⟩ := b
  cases blocks with
  | nil => exact absurd rfl nonempty
  | cons last blocks =>
      refine ⟨tos, congrArg (· + 1) i, sz, ?_⟩
      rw [← copy]
      show _ ++ ElementBlock.upTo _ (next + 1) = _ ++ last.upTo next ++ [value]
      rw [upTo_update, List.append_assoc]

/-- A block that is full goes in front of a new one. -/
theorem holds_grow (holds : Holds b c elems)
    (full : ∀ block ∈ b.blocks.head?, b.i = block.size) :
    Holds ⟨⟨(c.sz + 2) * 3 / 2, unwritten⟩ :: b.blocks, 0⟩ ⟨c.tos + 1, 0, (c.sz + 2) * 3 / 2⟩
      elems := by
  obtain ⟨tos, i, sz, copy⟩ := holds
  obtain ⟨blocks, next⟩ := b
  refine ⟨congrArg (· + 1) tos, rfl, rfl, ?_⟩
  rw [← copy]
  cases blocks with
  | nil => rfl
  | cons last blocks =>
      have size : next = last.size := full last rfl
      show (last :: blocks).reverse.flatMap _ ++ _ = _ ++ last.upTo next
      rw [List.reverse_cons, List.flatMap_append, List.flatMap_singleton, size]
      exact List.append_nil _

/-- The blocks in memory grow as their sizes say, and keep the elements in order. -/
theorem add_holds (holds : Holds b c elems) (value : RedisMsg) :
    (∃ b' c', b.add mem unwritten value = .ok b' ∧ c.add mem = .ok c' ∧
        Holds b' c' (elems ++ [value])) ∨
      ∃ status, b.add mem unwritten value = .error status ∧ c.add mem = .error status := by
  have grown : (∀ block ∈ b.blocks.head?, b.i = block.size) → c.tos = 0 ∨ c.i = c.sz →
      b.add mem unwritten value = (b.grow mem unwritten).map (·.write value) →
      (∃ b' c', b.add mem unwritten value = .ok b' ∧ c.add mem = .ok c' ∧
          Holds b' c' (elems ++ [value])) ∨
        ∃ status, b.add mem unwritten value = .error status ∧ c.add mem = .error status := by
    intro full isFull adds
    rw [adds, ElementBlocks.grow, JsonBlocks.add, if_pos isFull, ← holds.sz, ← holds.tos]
    dsimp only
    by_cases many : c.tos + 1 = JsonBlocks.maxBlocks
    · rw [if_pos many, if_pos many]
      exact Or.inr ⟨.badJson, rfl, rfl⟩
    · rw [if_neg many, if_neg many]
      by_cases granted : mem.wrk (sizeofRedisMsg * ((c.sz + 2) * 3 / 2)) = true
      · rw [if_pos granted, if_pos granted]
        have next := holds_write (@holds_grow unwritten b c elems holds full)
          (List.cons_ne_nil _ _) value
        exact Or.inl ⟨_, _, rfl, rfl, next⟩
      · rw [if_neg granted, if_neg granted]
        exact Or.inr ⟨.allocFail, rfl, rfl⟩
  obtain ⟨blocks, next⟩ := b
  cases blocks with
  | nil => exact grown (by simp) (Or.inl holds.tos) rfl
  | cons last blocks =>
      have size : c.sz = last.size := holds.sz
      have index : c.i = next := holds.i
      have some : c.tos ≠ 0 := by
        rw [holds.tos]
        exact Nat.succ_ne_zero _
      by_cases full : next = last.size
      · apply grown
        · intro block isLast
          cases isLast
          exact full
        · exact Or.inr (by omega)
        · exact if_pos full
      · have notFull : ¬(c.tos = 0 ∨ c.i = c.sz) := by omega
        refine Or.inl ⟨_, { c with i := c.i + 1 }, ?_, ?_,
          holds_write holds (List.cons_ne_nil _ _) value⟩
        · exact if_neg full
        · rw [JsonBlocks.add, if_neg notFull]

theorem finish_holds (holds : Holds b c elems) (json : Bytes) :
    b.finish mem json = c.finish mem elems json := by
  cases json with
  | nil => rfl
  | cons next rest => rw [ElementBlocks.finish, JsonBlocks.finish, holds.copy, holds.tos]

/-- The reader with its blocks in memory reads what the reader with the sizes of the blocks reads. -/
theorem parseJsonBlocks_eq (fuel : Nat) :
    (∀ json, parseJsonBlocks mem unwritten fuel json = parseJson mem fuel json) ∧
      ∀ b c elems json, Holds b c elems →
        parseArrayBlocks mem unwritten fuel b json = parseValues mem fuel c elems json := by
  induction fuel with
  | zero => exact ⟨fun _ => rfl, fun _ _ _ _ _ => rfl⟩
  | succ fuel ih =>
      obtain ⟨item, values⟩ := ih
      apply And.intro
      · intro json
        rw [parseJsonBlocks, parseJson]
        cases eatWhite json with
        | nil => rfl
        | cons c rest =>
            dsimp only
            rw [values _ _ _ _ holds_start]
      · intro b c elems json holds
        rw [parseArrayBlocks, parseValues, finish_holds holds, item]
        congr 1
        apply bind_congr
        rintro ⟨value, behind⟩
        dsimp only
        rcases @add_holds mem unwritten b c elems holds value with
          ⟨b', c', added, sized, holds'⟩ | ⟨status, failed, refused⟩
        · rw [added, sized]
          show (if _ then _ else _) = if _ then _ else _
          rw [values _ _ _ _ holds', finish_holds holds']
        · rw [failed, refused]
          rfl

theorem unpackJsonBlocks_eq (json : Bytes) :
    unpackJsonBlocks mem unwritten json = unpackJson mem json := by
  rw [unpackJsonBlocks, unpackJson, (parseJsonBlocks_eq _).1]

end Blocks

end Raids
