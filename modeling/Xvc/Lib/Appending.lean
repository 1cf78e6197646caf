import Xvc.Lib.ByteMem

/-!
# Appending to a buffer with checks of different kinds

A text is put together in a buffer piece by piece. Some pieces are stored byte by byte, and only below a
limit (`checked`); others are copied wherever the end is (`copied`), some with a zero behind them that the
next piece overwrites (`terminated`). The end moves on in either case.

* `putAll limit o ps b`: the buffer `b` after the pieces `ps` from `o` on.
* `Lands limit b o ps`: where a byte is not stored, the buffer has it already. `slice_putAll_iff`: exactly
  then the pieces are in the buffer.
* `Fits cap o ps`: nothing is stored at or behind `cap`.
-/

namespace Appending

open ByteMem

/-- The bytes of a piece, and how they are stored. -/
inductive Piece where
  | checked (l : List UInt8)
  | copied (l : List UInt8)
  | terminated (l : List UInt8)

/-- The bytes of a piece. -/
def Piece.bytes : Piece → List UInt8
  | checked l | copied l | terminated l => l

/-- The bytes of all pieces. -/
def bytesOf (ps : List Piece) : List UInt8 := ps.flatMap Piece.bytes

/-- The number of them. -/
def total (ps : List Piece) : Nat := (bytesOf ps).length

/-- The buffer after a piece at `o`. -/
def put (limit o : Nat) (b : ByteMem) : Piece → ByteMem
  | .checked l => write b o (l.take (limit - o))
  | .copied l => write b o l
  | .terminated l => write b o (l ++ [0])

/-- The buffer after the pieces from `o` on. -/
def putAll (limit : Nat) : Nat → List Piece → ByteMem → ByteMem
  | _, [], b => b
  | o, p :: ps, b => putAll limit (o + p.bytes.length) ps (put limit o b p)

/-- The bytes at or behind `limit` that a checked piece does not store are in the buffer already: from
before, or as the zero behind a terminated piece. -/
def Lands (limit : Nat) : ByteMem → Nat → List Piece → Prop
  | _, _, [] => True
  | b, o, .checked l :: ps =>
    (∀ i, i < l.length → limit ≤ o + i → b (o + i) = l.getD i 0) ∧ Lands limit b (o + l.length) ps
  | b, o, .copied l :: ps => Lands limit b (o + l.length) ps
  | b, o, .terminated l :: ps => Lands limit (write b (o + l.length) [0]) (o + l.length) ps

/-- What is stored without a check is below `cap`. -/
def Fits (cap : Nat) : Nat → List Piece → Prop
  | _, [] => True
  | o, .checked l :: ps => Fits cap (o + l.length) ps
  | o, .copied l :: ps => (l ≠ [] → o + l.length ≤ cap) ∧ Fits cap (o + l.length) ps
  | o, .terminated l :: ps => o + l.length + 1 ≤ cap ∧ Fits cap (o + l.length) ps

variable {limit cap o : Nat} {b b' : ByteMem} {p : Piece} {ps qs : List Piece}

@[simp] theorem bytesOf_nil : bytesOf [] = [] := rfl

@[simp] theorem bytesOf_cons : bytesOf (p :: ps) = p.bytes ++ bytesOf ps := List.flatMap_cons

@[simp] theorem bytesOf_append : bytesOf (ps ++ qs) = bytesOf ps ++ bytesOf qs := List.flatMap_append

@[simp] theorem total_nil : total [] = 0 := rfl

@[simp] theorem total_cons : total (p :: ps) = p.bytes.length + total ps := by simp [total]

@[simp] theorem total_append : total (ps ++ qs) = total ps + total qs := by simp [total]

theorem putAll_append : putAll limit o (ps ++ qs) b = putAll limit (o + total ps) qs (putAll limit o ps b) := by
  induction ps generalizing o b with
  | nil => rfl
  | cons p ps ih =>
    rw [List.cons_append, putAll, putAll, ih, total_cons, Nat.add_assoc]

theorem fits_append : Fits cap o (ps ++ qs) ↔ Fits cap o ps ∧ Fits cap (o + total ps) qs := by
  induction ps generalizing o with
  | nil => exact (iff_of_eq (true_and _)).symm
  | cons p ps ih =>
    rw [total_cons, ← Nat.add_assoc]
    cases p with
    | checked l => exact ih
    | copied l => rw [List.cons_append, Fits, Fits, and_assoc]; exact and_congr_right' ih
    | terminated l => rw [List.cons_append, Fits, Fits, and_assoc]; exact and_congr_right' ih

/-! ## What is in the buffer -/

theorem put_below {x : Nat} (hx : x < o) : put limit o b p x = b x := by
  cases p with
  | checked l => exact write_of_disjoint b _ (.inl hx)
  | copied l => exact write_of_disjoint b _ (.inl hx)
  | terminated l => exact write_of_disjoint b _ (.inl hx)

theorem putAll_below {x : Nat} (hx : x < o) : putAll limit o ps b x = b x := by
  induction ps generalizing o b with
  | nil => rfl
  | cons p ps ih => rw [putAll, ih (by omega), put_below hx]

/-- Only what is at or behind the pieces matters. -/
theorem lands_congr (h : ∀ x, o ≤ x → b x = b' x) : Lands limit b o ps ↔ Lands limit b' o ps := by
  induction ps generalizing o b b' with
  | nil => exact Iff.rfl
  | cons p ps ih =>
    cases p with
    | checked l =>
      refine and_congr (forall_congr' fun i => ?_) (ih fun x hx => h x (by omega))
      rw [h (o + i) (by omega)]
    | copied l => exact ih fun x hx => h x (by omega)
    | terminated l =>
      refine ih fun x hx => ?_
      unfold write
      rw [h x (by omega)]

/-- A piece is in the buffer when what it does not store is. -/
theorem slice_put_iff : slice (put limit o b p) o p.bytes.length = p.bytes ↔ Lands limit b o [p] := by
  cases p with
  | checked l =>
    show slice (write b o (l.take (limit - o))) o l.length = l ↔ _ ∧ True
    rw [and_true]
    -- Byte by byte: below the limit it is stored.
    have hbyte : ∀ i, i < l.length → (write b o (l.take (limit - o))) (o + i) =
        if limit ≤ o + i then b (o + i) else l.getD i 0 := by
      intro i hi
      unfold write
      rw [List.length_take, Nat.add_sub_cancel_left]
      by_cases hlim : limit ≤ o + i
      · rw [if_pos hlim, if_neg (by omega)]
      · rw [if_neg hlim, if_pos (by omega)]
        simp only [List.getD_eq_getElem?_getD, List.getElem?_take]
        rw [if_pos (by omega)]
    constructor
    · intro h i hi hlim
      have hb := hbyte i hi
      rw [if_pos hlim] at hb
      rw [← hb, ← getD_slice (write b o (l.take (limit - o))) o hi, h]
    · intro h
      apply List.ext_getElem (length_slice _ _ _)
      intro i h1 h2
      rw [getElem_slice, hbyte i h2]
      split
      · next hlim => rw [h i h2 hlim]; simp [List.getD_eq_getElem?_getD, h2]
      · simp [List.getD_eq_getElem?_getD, h2]
  | copied l => exact iff_of_true (slice_write b o l) trivial
  | terminated l =>
    refine iff_of_true ?_ trivial
    have h := slice_write b o (l ++ [0])
    exact (slice_eq_append h).1

/-- Behind a piece the buffer is what it was, but for the zero behind a terminated one. -/
theorem lands_cons : Lands limit b o (p :: ps) ↔
    Lands limit b o [p] ∧ Lands limit (put limit o b p) (o + p.bytes.length) ps := by
  cases p with
  | checked l =>
    refine and_congr (iff_of_eq (and_true _)).symm (lands_congr fun x hx => ?_)
    have hlen : (l.take (limit - o)).length ≤ l.length := by rw [List.length_take]; exact Nat.min_le_right _ _
    exact (write_of_disjoint b _ (.inr (Nat.le_trans (Nat.add_le_add_left hlen o) hx))).symm
  | copied l =>
    show Lands limit b (o + l.length) ps ↔ True ∧ Lands limit (write b o l) (o + l.length) ps
    rw [true_and]
    exact lands_congr fun x hx => (write_of_disjoint b l (.inr hx)).symm
  | terminated l =>
    show Lands limit (write b (o + l.length) [0]) (o + l.length) ps ↔
      True ∧ Lands limit (write b o (l ++ [0])) (o + l.length) ps
    rw [true_and]
    refine lands_congr fun x hx => ?_
    show write b (o + l.length) [0] x = write b o (l ++ [0]) x
    rw [← write_write]
    unfold write
    split
    · rfl
    · rw [if_neg (by omega)]

/-- **The pieces are in the buffer** exactly when what they do not store is there already. -/
theorem slice_putAll_iff : slice (putAll limit o ps b) o (total ps) = bytesOf ps ↔ Lands limit b o ps := by
  induction ps generalizing o b with
  | nil => exact iff_of_true rfl trivial
  | cons p ps ih =>
    have hfirst : slice (putAll limit (o + p.bytes.length) ps (put limit o b p)) o p.bytes.length =
        slice (put limit o b p) o p.bytes.length := slice_congr fun i hi => putAll_below (by omega)
    rw [lands_cons, ← slice_put_iff, ← ih, putAll, total_cons, bytesOf_cons, slice_append, hfirst]
    constructor
    · intro h
      exact List.append_inj h (length_slice _ _ _)
    · rintro ⟨h1, h2⟩
      rw [h1, h2]

theorem lands_of_le (h : o + total ps ≤ limit) : Lands limit b o ps := by
  induction ps generalizing o b with
  | nil => trivial
  | cons p ps ih =>
    rw [total_cons] at h
    cases p with
    | checked l =>
      simp only [Piece.bytes] at h
      exact ⟨fun i hi hlim => by omega, ih (by omega)⟩
    | copied l => exact ih (by simp only [Piece.bytes] at h; omega)
    | terminated l => exact ih (by simp only [Piece.bytes] at h; omega)

theorem fits_of_lt (h : o + total ps < cap) : Fits cap o ps := by
  induction ps generalizing o with
  | nil => trivial
  | cons p ps ih =>
    rw [total_cons] at h
    cases p with
    | checked l => exact ih (by simp only [Piece.bytes] at h; omega)
    | copied l =>
      simp only [Piece.bytes] at h
      exact ⟨fun _ => by omega, ih (by omega)⟩
    | terminated l =>
      simp only [Piece.bytes] at h
      exact ⟨by omega, ih (by omega)⟩

end Appending
