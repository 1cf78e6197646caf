import Xvc.Lib.ByteMem

/-!
# Blocks

A block that an allocator gave out, by offset. An offset outside of it, also one below 0, is a byte of
something else: an access there is seen in the offset, not in the value.

`load` and `store` are the accesses; with offsets from 0 on they are `slice` and `write` (`load_natCast`).
-/

/-- The byte at each offset from the start of the block. -/
abbrev Block := Int → UInt8

namespace Block

open ByteMem

variable {off : Int} {l : List UInt8}

/-- The `n` bytes from `off`. -/
def load (b : Block) (off : Int) (n : Nat) : List UInt8 := (List.range n).map fun i : Nat => b (off + i)

/-- The block with `l` stored at `off`. -/
def store (b : Block) (off : Int) (l : List UInt8) : Block :=
  fun j => if off ≤ j ∧ j < off + l.length then l.getD (j - off).toNat 0 else b j

/-- What is from the start of the block on. -/
def mem (b : Block) : ByteMem := fun i => b i

@[simp] theorem length_load (b : Block) (off : Int) (n : Nat) : (b.load off n).length = n := by simp [load]

theorem load_natCast (b : Block) (a n : Nat) : b.load a n = slice b.mem a n := by
  refine List.ext_getElem (by simp) fun i h1 h2 => ?_
  simp [load, mem]

/-- The first `n` bytes are the same. -/
def Agrees (n : Nat) (b b' : Block) : Prop := ∀ i : Nat, i < n → b i = b' i

theorem load_congr {b b' : Block} {n a k : Nat} (h : Agrees n b b') (hk : a + k ≤ n) : b.load a k = b'.load a k := by
  refine List.map_congr_left fun i hi => ?_
  rw [List.mem_range] at hi
  exact h (a + i) (by omega)

/-- What was stored. -/
theorem load_store (b : Block) (off : Int) (l : List UInt8) : (b.store off l).load off l.length = l := by
  refine List.ext_getElem (by simp) fun i h1 h2 => ?_
  have hin : off ≤ off + (i : Int) ∧ off + (i : Int) < off + l.length := by omega
  simp only [load, store, List.getElem_map, List.getElem_range]
  rw [if_pos hin, show (off + (i : Int) - off).toNat = i by omega]
  simp [List.getD_eq_getElem?_getD, h2]

/-- A store from 0 on settles its bytes. -/
theorem agrees_store (b b' : Block) (l : List UInt8) : Agrees l.length (b.store 0 l) (b'.store 0 l) := by
  intro i hi
  unfold store
  rw [if_pos (by omega), if_pos (by omega)]

/-- Two stores, the second where the first ends. -/
theorem store_append (b : Block) (off : Int) (l l' : List UInt8) :
    (b.store off l).store (off + l.length) l' = b.store off (l ++ l') := by
  funext j
  simp only [store, List.length_append, Int.natCast_add]
  by_cases h1 : off ≤ j ∧ j < off + l.length
  · rw [if_neg (by omega), if_pos h1, if_pos (by omega)]
    have hlt : (j - off).toNat < l.length := by omega
    simp [List.getD_eq_getElem?_getD, List.getElem?_append_left hlt]
  · by_cases h2 : off + l.length ≤ j ∧ j < off + l.length + l'.length
    · rw [if_pos h2, if_pos (by omega)]
      have hle : l.length ≤ (j - off).toNat := by omega
      rw [List.getD_eq_getElem?_getD, List.getD_eq_getElem?_getD, List.getElem?_append_right hle,
        show (j - off).toNat - l.length = (j - (off + l.length)).toNat by omega]
    · rw [if_neg h2, if_neg h1, if_neg (by omega)]

theorem store_nil (b : Block) (off : Int) : b.store off [] = b := by
  funext j
  simp only [store, List.length_nil]
  rw [if_neg (by omega)]

end Block
