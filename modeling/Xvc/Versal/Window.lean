import Xvc.Versal.Memory

/-!
# The window and the copy loops of `xvc_mem`

`mrd` and `mwr` compare the end of a request with the end of the hub window, and copy by whole words.

* `Access`: the bytes that a loop touches. `window_check_iff`: a request is refused exactly when it leaves
  the window, and then nothing is touched, unless its end wraps to an address at or before the window's end.
* `mrdMultiWord`, `mwrMultiWord`: the other build, which calls `memcpy`. `single_word_iff`: the loops do the
  same, on the same bytes, exactly for whole words.
-/

namespace Xvc
namespace Versal

open ByteMem

/-- An access of `n` bytes: of the hub, from index `i` of `hub.buf`, or of the caller's buffer, from `i`. -/
inductive Access where
  | hub (i n : Nat)
  | buf (i n : Nat)
  deriving DecidableEq

/-- The access is to the `n` bytes from `offset` of the hub, or from `buf` of the caller's buffer. -/
def Access.Within (offset buf n : Nat) : Access → Prop
  | .hub i m => offset ≤ i ∧ i + m ≤ offset + n
  | .buf i m => buf ≤ i ∧ i + m ≤ buf + n

/-- What `mrdLoop` and `mwrLoop` access: one of the two sides is read, the other is written. -/
def loopAccesses (offset buf : Nat) : Nat → Nat → List Access
  | 0, _ => []
  | k + 1, i => .hub (offset + i) 4 :: .buf (buf + i) 4 :: loopAccesses offset buf k (i + 4)

/-- What `mrd` and `mwr` access. -/
def accesses (hub : MemRegion) (addr numBytes buf : Nat) : List Access :=
  if hub.rejects addr numBytes then [] else loopAccesses (addr - hub.addr) buf (words numBytes) 0

/-- `mrd` without `ENABLE_SINGLE_WORD_RW`. -/
def mrdMultiWord (hub : MemRegion) (mem : ByteMem) (_flags addr numBytes buf : Nat) : CallResult ByteMem :=
  if hub.rejects addr numBytes then { clientData := mem, error := some (invalidArguments addr numBytes) }
  else { clientData := mem, stores := [(buf, slice mem (addr - hub.addr) numBytes)] }

/-- `mwr` without `ENABLE_SINGLE_WORD_RW`. -/
def mwrMultiWord (hub : MemRegion) (mem rx : ByteMem) (_flags addr numBytes buf : Nat) : CallResult ByteMem :=
  if hub.rejects addr numBytes then { clientData := mem, error := some (invalidArguments addr numBytes) }
  else { clientData := write mem (addr - hub.addr) (slice rx buf numBytes) }

variable {hub : MemRegion} {mem rx : ByteMem} {flags addr numBytes buf : Nat}

/-! ## The window check -/

/-- The end of the request wraps, to an address at or before the end of the window. -/
def MemRegion.WrapsInto (hub : MemRegion) (addr numBytes : Nat) : Prop :=
  hub.addr ≤ addr ∧ 2 ^ 64 ≤ addr + numBytes ∧ addr + numBytes - 2 ^ 64 ≤ hub.addr + hub.size

instance (hub : MemRegion) (addr numBytes : Nat) : Decidable (hub.WrapsInto addr numBytes) :=
  inferInstanceAs (Decidable (_ ∧ _ ∧ _))

/-- What the check lets through. -/
theorem MemRegion.not_rejects_iff (hub : MemRegion) (ha : addr < 2 ^ 64) (hn : numBytes < 2 ^ 64) :
    hub.rejects addr numBytes = false ↔ hub.Inside addr numBytes ∨ hub.WrapsInto addr numBytes := by
  have hmapped := hub.mapped
  by_cases hwrap : addr + numBytes < 2 ^ 64
  · rw [Bool.eq_false_iff, Ne, hub.rejects_iff hwrap, not_not]
    have hno : ¬ hub.WrapsInto addr numBytes := by
      rintro ⟨-, hle, -⟩
      omega
    exact (or_iff_left hno).symm
  · have hsum : u64 (addr + numBytes) = addr + numBytes - 2 ^ 64 := by
      unfold u64
      rw [Nat.mod_eq_sub_mod (by omega), Nat.mod_eq_of_lt (by omega)]
    unfold rejects Inside WrapsInto
    rw [hsum, u64_of_lt hmapped]
    simp only [decide_eq_false_iff_not]
    omega

/-- The callback set an error exactly when the request leaves the window, and then it touched neither the
hub nor its buffer. -/
structure WindowChecked (hub : MemRegion) (mem : ByteMem) (addr numBytes : Nat) (accesses : List Access)
    (r : CallResult ByteMem) : Prop where
  error : r.error.isSome ↔ ¬ hub.Inside addr numBytes
  untouched : r.error.isSome → accesses = [] ∧ r.clientData = mem ∧ r.stores = []

/-- For either callback: `err` is its result for a refused request, `done` the other one. -/
theorem windowChecked_iff {acc : List Access} {err done : CallResult ByteMem} (ha : addr < 2 ^ 64)
    (hn : numBytes < 2 ^ 64) (herr : err = { clientData := mem, error := some (invalidArguments addr numBytes) })
    (hdone : done.error = none) :
    WindowChecked hub mem addr numBytes (if hub.rejects addr numBytes then [] else acc)
        (if hub.rejects addr numBytes then err else done) ↔
      ¬ hub.WrapsInto addr numBytes := by
  have hpass := hub.not_rejects_iff ha hn
  have hmapped := hub.mapped
  cases hrej : hub.rejects addr numBytes with
  | true =>
    rw [hrej, Bool.true_eq_false, false_iff, not_or] at hpass
    rw [if_pos rfl, if_pos rfl, herr]
    exact iff_of_true ⟨iff_of_true rfl hpass.1, fun _ => ⟨rfl, rfl, rfl⟩⟩ hpass.2
  | false =>
    rw [if_neg Bool.false_ne_true, if_neg Bool.false_ne_true]
    have hnone : done.error.isSome = false := by rw [hdone]; rfl
    constructor
    · -- A request whose end wraps is not inside.
      intro hchecked hwraps
      have hin : hub.Inside addr numBytes := by
        by_contra hout
        exact absurd (hchecked.error.mpr hout) (by rw [hnone]; exact Bool.false_ne_true)
      unfold MemRegion.Inside MemRegion.WrapsInto at *
      omega
    · intro hwraps
      have hin := (hpass.mp hrej).resolve_right hwraps
      exact ⟨iff_of_false (by rw [hnone]; exact Bool.false_ne_true) (not_not_intro hin),
        fun hsome => absurd (hnone.symm.trans hsome) Bool.false_ne_true⟩

/-- **The window check** of `mrd` and of `mwr` is exact, and nothing is touched behind it, if and only if the
end of the request does not wrap into the window or before it. -/
theorem window_check_iff (hub : MemRegion) (mem rx : ByteMem) (flags addr numBytes buf : Nat)
    (ha : addr < 2 ^ 64) (hn : numBytes < 2 ^ 64) :
    (WindowChecked hub mem addr numBytes (accesses hub addr numBytes buf) (mrd hub mem flags addr numBytes buf) ∧
      WindowChecked hub mem addr numBytes (accesses hub addr numBytes buf) (mwr hub mem rx flags addr numBytes buf)) ↔
      ¬ hub.WrapsInto addr numBytes := by
  unfold accesses mrd mwr
  rw [windowChecked_iff ha hn rfl rfl, windowChecked_iff ha hn rfl rfl, and_self]

theorem window_check_last_word :
    WindowChecked defaultHub zeroHub 0xA41FFFFC 4 [.hub 0x1FFFFC 4, .buf 7 4]
      (mrd defaultHub zeroHub 0 0xA41FFFFC 4 7) :=
  ((window_check_iff defaultHub zeroHub zeroHub 0 0xA41FFFFC 4 7 (by decide) (by decide)).mpr (by decide)).1

/-- `mrd:` from the begin of the hub up to the end of the address space. -/
def wrappingMrd : List UInt8 :=
  ascii "mrd:" ++ [0] ++ [0x80, 0x80, 0x80, 0xa0, 0x0a] ++ [0x80, 0x80, 0x80, 0xe0, 0xf5, 0xff, 0xff, 0xff, 0xff, 0x01]

/-- It is delivered to `mrd`, which accepts it. -/
theorem window_check_wraps :
    let s := Server.loaded zeroHub wrappingMrd
    parse (handlers defaultHub) s s.rx.buf (ascii "mrd:") (s.rx.buf + 4) =
        .msg (.mrd 0 0xA4000000 0xFFFFFFFF5C000000) (s.rx.buf + 20) ∧
      (mrd defaultHub zeroHub 0 0xA4000000 0xFFFFFFFF5C000000 0).error = none ∧
      ¬ defaultHub.Inside 0xA4000000 0xFFFFFFFF5C000000 :=
  ⟨rfl, rfl, by decide⟩

/-! ## The copy loops -/

/-- For a request inside the window, `mrd` into the reply buffer at `i` and `mwr` of the request bytes at `p`
do what the `memcpy`s do, to the bytes of the request and no others, and access nothing else. -/
structure SameAsMultiWord (hub : MemRegion) (mem rx reply : ByteMem) (flags addr numBytes p i : Nat) : Prop where
  mwr : mwr hub mem rx flags addr numBytes p = mwrMultiWord hub mem rx flags addr numBytes p
  written : (Versal.mwr hub mem rx flags addr numBytes p).clientData =
    write mem (addr - hub.addr) (slice rx p numBytes)
  mrd : applyStores (mrd hub mem flags addr numBytes i).stores reply =
    applyStores (mrdMultiWord hub mem flags addr numBytes i).stores reply
  read : applyStores (Versal.mrd hub mem flags addr numBytes i).stores reply =
    write reply i (slice mem (addr - hub.addr) numBytes)
  mwrAccesses : ∀ x ∈ accesses hub addr numBytes p, x.Within (addr - hub.addr) p numBytes
  mrdAccesses : ∀ x ∈ accesses hub addr numBytes i, x.Within (addr - hub.addr) i numBytes

theorem mem_loopAccesses {offset k i : Nat} {x : Access} :
    x ∈ loopAccesses offset buf k i ↔
      ∃ j < k, x = .hub (offset + (i + 4 * j)) 4 ∨ x = .buf (buf + (i + 4 * j)) 4 := by
  induction k generalizing i with
  | zero => simp [loopAccesses]
  | succ k ih =>
    rw [loopAccesses, List.mem_cons, List.mem_cons, ih]
    constructor
    · rintro (rfl | rfl | ⟨j, hj, hx⟩)
      · exact ⟨0, by omega, .inl rfl⟩
      · exact ⟨0, by omega, .inr rfl⟩
      · refine ⟨j + 1, by omega, ?_⟩
        rw [show i + 4 * (j + 1) = i + 4 + 4 * j by omega]
        exact hx
    · rintro ⟨j, hj, hx⟩
      cases j with
      | zero => exact hx.imp_right .inl
      | succ j =>
        rw [show i + 4 * (j + 1) = i + 4 + 4 * j by omega] at hx
        exact .inr (.inr ⟨j, by omega, hx⟩)

/-- The last word ends where the request ends only if that is a whole number of words. -/
theorem loopAccesses_within_iff {offset : Nat} :
    (∀ x ∈ loopAccesses offset buf (words numBytes) 0, x.Within offset buf numBytes) ↔ numBytes % 4 = 0 := by
  have hwords : words numBytes = (numBytes + 3) / 4 := rfl
  constructor
  · intro h
    by_contra hne
    have hlast := h (.hub (offset + (0 + 4 * (words numBytes - 1))) 4)
      (mem_loopAccesses.mpr ⟨words numBytes - 1, by omega, .inl rfl⟩)
    have hend : offset + (0 + 4 * (words numBytes - 1)) + 4 ≤ offset + numBytes := hlast.2
    omega
  · rintro hword x hx
    obtain ⟨j, hj, rfl | rfl⟩ := mem_loopAccesses.mp hx
    · show offset ≤ _ ∧ _ ≤ offset + numBytes
      omega
    · show buf ≤ _ ∧ _ ≤ buf + numBytes
      omega

theorem MemRegion.Inside.not_rejects (h : hub.Inside addr numBytes) : hub.rejects addr numBytes = false := by
  have hmapped := hub.mapped
  have hend : addr + numBytes < 2 ^ 64 := Nat.lt_of_le_of_lt h.2 hmapped
  exact (hub.not_rejects_iff (by omega) (by omega)).mpr (.inl h)

/-- **The copy loops** do what `memcpy` does, on the same bytes, if and only if the request is whole words. -/
theorem single_word_iff (hub : MemRegion) (mem rx reply : ByteMem) (flags addr numBytes p i : Nat)
    (hin : hub.Inside addr numBytes) :
    SameAsMultiWord hub mem rx reply flags addr numBytes p i ↔ numBytes % 4 = 0 := by
  have hpass := hin.not_rejects
  have hacc : ∀ buf, accesses hub addr numBytes buf = loopAccesses (addr - hub.addr) buf (words numBytes) 0 := by
    intro buf
    unfold accesses
    rw [hpass, if_neg Bool.false_ne_true]
  constructor
  · intro h
    have hwithin := h.mwrAccesses
    rw [hacc] at hwithin
    exact loopAccesses_within_iff.mp hwithin
  · intro hword
    have hk : 4 * words numBytes = numBytes := by unfold words; omega
    have hwrite : (mwr hub mem rx flags addr numBytes p) =
        { clientData := write mem (addr - hub.addr) (slice rx p numBytes) } := by
      unfold mwr
      rw [hpass, if_neg Bool.false_ne_true, mwrLoop_eq, hk]
      rfl
    have hread : applyStores (mrd hub mem flags addr numBytes i).stores reply =
        write reply i (slice mem (addr - hub.addr) numBytes) := by
      unfold mrd
      rw [hpass, if_neg Bool.false_ne_true]
      show applyStores (mrdLoop _ _ _ _ _) _ = _
      rw [applyStores_mrdLoop, hk]
      rfl
    refine ⟨?_, congrArg CallResult.clientData hwrite, ?_, hread, ?_, ?_⟩
    · rw [hwrite, mwrMultiWord, hpass, if_neg Bool.false_ne_true]
    · rw [hread, mrdMultiWord, hpass, if_neg Bool.false_ne_true]
      rfl
    · rw [hacc]
      exact loopAccesses_within_iff.mpr hword
    · rw [hacc]
      exact loopAccesses_within_iff.mpr hword

theorem single_word_two_words :
    (mwr defaultHub zeroHub (write zeroHub 3 [1, 2, 3, 4, 5, 6, 7, 8]) 0 0xA41FFFF8 8 3).clientData 0x1FFFFF = 8 := by
  have h := (single_word_iff defaultHub zeroHub (write zeroHub 3 [1, 2, 3, 4, 5, 6, 7, 8]) zeroHub 0 0xA41FFFF8 8 3 0
    (by decide)).mpr (by decide)
  rw [h.written]
  decide

/-- `mwr:` of the last byte of the window, followed by `getinfo:`: three bytes of that are written behind
the window. -/
theorem single_word_writes_foreign_bytes :
    defaultHub.Inside 0xA41FFFFF 1 ∧
      (mwr defaultHub zeroHub (write zeroHub 0 (0xff :: ascii "getinfo:")) 0 0xA41FFFFF 1 0).clientData 0x200000 =
      0x67 := by
  decide

end Versal
end Xvc
