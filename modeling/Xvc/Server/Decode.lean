import Xvc.Server.Messages

/-!
# Decoding what has been received

`Holds s cbuf l` says that the bytes `l` are what the server has received from `cbuf` on. This module
has what the decoding helpers of `read_packet` return then, for a message that is there and for one
that is cut short.

* `scanHeader_of`, `scanHeader_short`: the header.
* `Uleb`: a LEB128 number on the wire. `Holds.getUlebs`: several calls of `get_uleb128` in a row are
  `Leb128.reads`; `getUlebs_whole` and `getUlebs_cut` are the two cases.
* `getUintLe_leBytes`: the four bytes of `shift:` and `settck:`.
* `incomplete_eq_fill`: the assertion of the incomplete path holds.
-/

namespace Xvc

open ByteMem Stream

variable {σ : Type}

/-- The bytes `l` are what has been received from `cbuf` on. -/
structure Holds (s : Server σ) (cbuf : Nat) (l : List UInt8) : Prop where
  bytes : slice s.mem cbuf l.length = l
  ends : cbuf + l.length = s.cend
  fits : s.bufLen ≤ s.rx.bufMax

theorem Holds.drop {s : Server σ} {cbuf : Nat} {l r : List UInt8} (h : Holds s cbuf (l ++ r)) :
    Holds s (cbuf + l.length) r := by
  have hb := h.bytes
  have he := h.ends
  rw [List.length_append] at hb he
  obtain ⟨-, h2, -⟩ := slice_eq_append hb
  rw [Nat.add_sub_cancel_left] at h2
  exact ⟨h2, by omega, h.fits⟩

theorem Holds.take {s : Server σ} {cbuf : Nat} {l r : List UInt8} (h : Holds s cbuf (l ++ r)) :
    slice s.mem cbuf l.length = l :=
  (slice_eq_append h.bytes).1

theorem Holds.le_cend {s : Server σ} {cbuf : Nat} {l r : List UInt8} (h : Holds s cbuf (l ++ r)) :
    cbuf + l.length ≤ s.cend := by
  have := h.ends
  rw [List.length_append] at this
  omega

theorem Holds.of_received {s t : Server σ} {p : Nat} {l : List UInt8} (hr : t.received = s.received)
    (hh : Holds s p l) : Holds t p l := by
  have hrx := Server.rx_of_received hr
  have hlen := Server.bufLen_of_received hr
  have hmem : t.mem = s.mem := (Prod.mk.inj (Prod.mk.inj hr).2).2
  refine ⟨?_, ?_, ?_⟩
  · rw [hmem]; exact hh.bytes
  · unfold Server.cend; rw [hrx, hlen]; exact hh.ends
  · rw [hrx, hlen]; exact hh.fits

/-- What has been received from `k` bytes further on, also past the end. -/
theorem Holds.slice_from {s : Server σ} {cbuf : Nat} {l : List UInt8} (h : Holds s cbuf l) (k : Nat) :
    slice s.mem (cbuf + k) (s.cend - (cbuf + k)) = l.drop k := by
  have he := h.ends
  by_cases hk : k ≤ l.length
  · rw [show s.cend - (cbuf + k) = l.length - k by omega, ← drop_slice s.mem cbuf hk, h.bytes]
  · rw [show s.cend - (cbuf + k) = 0 by omega, List.drop_eq_nil_of_le (by omega)]; rfl

/-- `configure:` writes into its own text only. -/
theorem Holds.of_execConfigure {s : Server σ} {p : Nat} {locking : Bool} {text rest : List UInt8}
    (hh : Holds s p (text ++ rest))
    (hmax : text.length < 2 ^ 32) :
    Holds (execConfigure locking s text.length p) (p + text.length) rest := by
  have he := hh.le_cend
  have hce := s.cend_le hh.fits
  obtain ⟨-, hframe⟩ := configure_spec locking s.mem p text.length s.c
  have hend : u64 (p + u32 text.length) = p + text.length := by
    rw [u32_of_lt hmax, u64_of_lt (by omega)]
  have hd := hh.drop
  unfold execConfigure
  simp only [hend]
  generalize configure locking s.mem p (p + text.length) s.c = r at hframe
  refine Holds.of_received (s := { s with mem := r.1, c := r.2 }) (Server.received_replyStatus _)
    ⟨?_, hd.ends, hd.fits⟩
  exact (slice_congr fun i _ => hframe _ (.inr (Nat.le_add_right _ i))).trans hd.bytes

variable {s : Server σ} {cbuf q : Nat} {l : List UInt8}

/-! ## The header -/

theorem scanColon_of {mem : ByteMem} {k p : Nat} (hl : ∀ i, i < k → mem (p + i) ≠ 58) (r : Nat) :
    scanColon mem (k + r) p = scanColon mem r (p + k) := by
  induction k generalizing p with
  | zero => simp
  | succ k ih =>
    have h0 := hl 0 (by omega)
    rw [show k + 1 + r = (k + r) + 1 by omega, scanColon, if_neg (by simpa using h0),
      ih fun i hi => by rw [show p + 1 + i = p + (i + 1) by omega]; exact hl (i + 1) (by omega)]
    congr 1; omega

/-- A slice without `:` has none at any of its addresses. -/
theorem ne_colon_of_slice {mem : ByteMem} {p : Nat} (h : slice mem p l.length = l) (hl : 58 ∉ l) :
    ∀ i, i < l.length → mem (p + i) ≠ 58 := by
  intro i hi h58
  have hg := getD_slice mem p hi
  rw [h, h58, List.getD_eq_getElem?_getD, List.getElem?_eq_getElem hi] at hg
  exact hl (by rw [← show l[i] = 58 from hg]; exact List.getElem_mem hi)

/-- A header that has been received whole. -/
theorem scanHeader_of {name rest : List UInt8} (h : Holds s cbuf (name ++ [58] ++ rest)) (hname : 58 ∉ name)
    (hlen : name.length < 30) :
    scanHeader s cbuf = .header (name ++ [58]) (cbuf + (name.length + 1)) := by
  have he := h.ends
  simp only [List.length_append, List.length_singleton] at he
  have hn := (Holds.take (l := name) (r := [58] ++ rest) (by simpa using h))
  have hcolon : s.mem (cbuf + name.length) = 58 := by
    have := Holds.take (Holds.drop (l := name) (r := [58] ++ rest) (by simpa using h))
    simpa [slice_succ] using this
  unfold scanHeader
  generalize hend : (if cbuf + 30 < s.cend then cbuf + 30 else s.cend) = e
  have hlt : cbuf + name.length < e := by rw [← hend]; split <;> omega
  have hscan : scanColon s.mem (e - cbuf) cbuf = cbuf + name.length := by
    obtain ⟨r, hr⟩ : ∃ r, e - cbuf = name.length + (r + 1) := ⟨e - cbuf - name.length - 1, by omega⟩
    rw [hr, scanColon_of (ne_colon_of_slice hn hname), scanColon, if_pos hcolon]
  simp only [hscan, if_neg (Nat.not_le_of_lt hlt)]
  have hhdr : slice s.mem cbuf (cbuf + name.length + 1 - cbuf) = name ++ [58] := by
    rw [show cbuf + name.length + 1 - cbuf = (name ++ [58]).length by
      simp only [List.length_append, List.length_singleton]; omega]
    exact h.take
  rw [hhdr]; rfl

/-- A header that is cut short. -/
theorem scanHeader_short (h : Holds s cbuf l) (hl : 58 ∉ l) (hlen : l.length < 30) :
    scanHeader s cbuf = .fill := by
  have he := h.ends
  have hscan : scanColon s.mem (s.cend - cbuf) cbuf = s.cend := by
    rw [show s.cend - cbuf = l.length + 0 by omega, scanColon_of (ne_colon_of_slice h.bytes hl), scanColon]
    omega
  unfold scanHeader
  simp only [if_neg (show ¬ cbuf + 30 < s.cend by omega), hscan, Nat.le_refl, if_true]
  rw [if_neg (by omega)]

/-! ## Numbers -/

/-- A LEB128 number on the wire: at most the ten bytes that 64 bits take. -/
structure Uleb where
  bytes : List UInt8
  isField : Leb128.IsField bytes
  short : bytes.length ≤ 10

namespace Uleb

def value (u : Uleb) : Nat := Leb128.value 64 u.bytes

theorem isField_of_mem (us : List Uleb) : ∀ f ∈ us.map bytes, Leb128.IsField f := by
  intro f hf
  obtain ⟨u, -, rfl⟩ := List.mem_map.mp hf
  exact u.isField

theorem isField_encode_toNat (n : UInt64) : Leb128.IsField (Leb128.encode 10 n.toNat) :=
  Leb128.isField_encode (by decide) (Nat.lt_trans n.toNat_lt (by decide))

/-- A number in as few bytes as it takes. -/
def ofUInt64 (n : UInt64) : Uleb :=
  ⟨Leb128.encode 10 n.toNat, isField_encode_toNat n, Leb128.length_encode_le 10 n.toNat⟩

/-- The bytes of several numbers. -/
def enc (us : List Uleb) : List UInt8 := (us.map bytes).flatten

end Uleb

/-- `k` calls of `get_uleb128`: the values and the cursor after them. -/
def getUlebs (mem : ByteMem) (bufend : Nat) : Nat → Nat → List Nat × Nat
  | 0, p => ([], p)
  | k + 1, p =>
    let r := getUleb128 mem p bufend
    let rs := getUlebs mem bufend k r.2
    (r.1 :: rs.1, rs.2)

/-- `k` calls of `get_uleb128` from `j` bytes behind the cursor read what is there. -/
theorem Holds.getUlebs (h : Holds s q l) (k j : Nat) :
    getUlebs s.mem s.cend k (q + j) =
      ((Leb128.reads 64 k (l.drop j)).1, q + (j + (Leb128.reads 64 k (l.drop j)).2)) := by
  induction k generalizing j with
  | zero => rfl
  | succ k ih =>
    have h1 : getUleb128 s.mem (q + j) s.cend =
        ((Leb128.read 64 (l.drop j) 0 0).1, q + (j + (Leb128.read 64 (l.drop j) 0 0).2)) := by
      rw [getUleb128_eq, h.slice_from j, Nat.add_assoc]
    simp only [Xvc.getUlebs, h1, ih, Leb128.reads, List.drop_drop, Prod.mk.injEq, true_and]
    omega

/-- Numbers that are there. -/
theorem getUlebs_whole {us : List Uleb} {rest : List UInt8} (h : Holds s q (Uleb.enc us ++ rest)) :
    getUlebs s.mem s.cend us.length q = (us.map Uleb.value, q + (Uleb.enc us).length) := by
  have hr := Leb128.reads_fields (Uleb.isField_of_mem us) 64 rest
  have := h.getUlebs us.length 0
  rw [List.length_map] at hr
  rw [Nat.add_zero, List.drop_zero] at this
  rw [this, Uleb.enc, hr, List.map_map, Nat.zero_add]
  rfl

/-- Numbers that are cut short: the cursor ends behind what was received, but not behind where they
end. -/
theorem getUlebs_cut {us : List Uleb} (h : Holds s q l) (hl : Proper l (Uleb.enc us)) :
    ∃ vs e, getUlebs s.mem s.cend us.length q = (vs, e) ∧ s.cend < e ∧ e ≤ q + (Uleb.enc us).length ∧
      Leb128.Cut (us.map Uleb.value) vs := by
  obtain ⟨h1, h2, h3⟩ := Leb128.reads_truncated (Uleb.isField_of_mem us) hl 64
  have he := h.ends
  have := h.getUlebs us.length 0
  rw [List.length_map, List.map_map] at *
  rw [Nat.add_zero, List.drop_zero] at this
  refine ⟨_, _, this, by omega, ?_, h3⟩
  unfold Uleb.enc
  omega

theorem getUleb128_whole {u : Uleb} {rest : List UInt8} (h : Holds s q (u.bytes ++ rest)) :
    getUleb128 s.mem q s.cend = (u.value, q + u.bytes.length) := by
  have h1 : Holds s q (Uleb.enc [u] ++ rest) := by simpa [Uleb.enc] using h
  have hw := getUlebs_whole h1
  simpa [Xvc.getUlebs, Uleb.enc, Prod.ext_iff] using hw

theorem getUleb128_cut {u : Uleb} (h : Holds s q l) (hl : Proper l u.bytes) :
    ∃ v e x, getUleb128 s.mem q s.cend = (v, e) ∧ s.cend < e ∧ e ≤ q + u.bytes.length ∧ u.value = v ||| x := by
  have hl1 : Proper l (Uleb.enc [u]) := by simpa [Uleb.enc] using hl
  obtain ⟨vs, e, hg, h1, h2, hcut⟩ := getUlebs_cut h hl1
  obtain ⟨rfl, rfl⟩ := Prod.mk.inj hg
  rcases hcut.cons_cases with ⟨a, x, hv, hvs⟩ | ⟨us', -, hcut'⟩
  · have h2' : (getUleb128 s.mem q s.cend).2 ≤ q + (Uleb.enc [u]).length := h2
    exact ⟨a, _, x, Prod.ext (List.cons.inj hvs).1 rfl, h1, by simpa [Uleb.enc] using h2', hv⟩
  · exact absurd hcut' Leb128.not_cut_nil

/-- `get_uint_le` of at most four bytes. -/
theorem getUintLe_eq_ofLe {l : List UInt8} (h : l.length ≤ 4) : getUintLe l = ofLe l := by
  induction l with
  | nil => rfl
  | cons b l ih =>
    rw [List.length_cons] at h
    have hlt : ofLe l < 256 ^ 3 :=
      Nat.lt_of_lt_of_le (ofLe_lt l) (Nat.pow_le_pow_right (by decide) (by omega))
    have hb : b.toNat < 2 ^ 8 := b.toNat_lt
    show u32 (getUintLe l <<< 8) ||| b.toNat = b.toNat + 256 * ofLe l
    rw [ih (by omega), u32_of_lt (by rw [Nat.shiftLeft_eq]; omega), ← Nat.shiftLeft_add_eq_or_of_lt hb,
      Nat.shiftLeft_eq]
    omega

theorem getUintLe_leBytes {v : Nat} (h : v < 2 ^ 32) : getUintLe (leBytes 4 v) = v := by
  rw [getUintLe_eq_ofLe (by simp), ofLe_leBytes, Nat.mod_eq_of_lt (by simpa using h)]

/-! ## The incomplete paths -/

/-- The assertions of the incomplete paths hold for a message that fits the buffer. -/
theorem ptrDiff_of_le {p q : Nat} (h : q ≤ p) (hd : p - q < 2 ^ 63) : ptrDiff p q = ((p - q : Nat) : Int) := by
  unfold ptrDiff u64
  simp only
  rw [show (p + 2 ^ 64 - q) % 2 ^ 64 = p - q by omega, if_pos hd]

theorem incomplete_eq_fill {R : Type} {pend : Nat} (hle : cbuf ≤ pend) (hmax : pend - cbuf ≤ s.rx.bufMax) :
    incomplete s cbuf pend = (.fill : Parsed R) := by
  have := s.rx.unsigned
  unfold incomplete
  rw [ptrDiff_of_le hle (by omega), if_pos (by omega)]

end Xvc
