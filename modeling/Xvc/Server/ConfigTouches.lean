import Xvc.Server.Contain

/-!
# The bytes that `configure:` reads and writes

The functions of `Xvc/Server/Configure.lean` once more, with the addresses they access instead of what they
compute: the scans up to and with the byte that ends them, the stores, and the temporary NUL at `pktend`.

* `configureTouches_within`: none of them is before the text or behind `pktend`. The NUL at `pktend` ends
  every scan, and stays there because the loop stores nothing but NULs.
* `configure_inside_iff`: all of them are in the receive buffer exactly when `pktend` is.
-/

namespace Xvc

open ByteMem

variable {σ R : Type}

/-- The addresses from `a` to `b`, with `b`. -/
def span (a b : Nat) : List Nat := List.range' a (b + 1 - a)

theorem mem_span {a b x : Nat} (h : x ∈ span a b) : a ≤ x ∧ x ≤ b := by
  unfold span at h
  rw [List.mem_range'_1] at h
  omega

/-- `strcmp` of the string at `s` with the literal `l`. -/
def strcmpTouches (mem : ByteMem) : List UInt8 → Nat → List Nat
  | [], s => [s]
  | b :: l, s => s :: if mem s = b then strcmpTouches mem l (s + 1) else []

/-- `applyOption`: the two `strcmp`, and the `%s` of the error for another name. -/
def optionTouches (locking : Bool) (mem : ByteMem) (config pktend : Nat) : List Nat :=
  let name := cstr mem (pktend - config) config
  strcmpTouches mem (ascii "locking") config ++
    if name = ascii "locking" ∧ locking then []
    else
      strcmpTouches mem (ascii "status") config ++
        if name = ascii "status" then [] else span config (scanTo mem 0 (pktend - config) config)

/-- `configItem`: `strchr`, `strlen`, the store that ends the name, and `applyOption`. -/
def configItemTouches (locking : Bool) (mem : ByteMem) (config pktend : Nat) : List Nat :=
  let assign := scanTo mem 61 (pktend - config) config
  span config assign ++
    if mem assign = 61 then assign :: optionTouches locking (write mem assign [0]) config pktend
    else
      let e := scanTo mem 0 (pktend - config) config
      span config e ++
        if 1 < e - config then
          let last := config + (e - config) - 1
          last :: optionTouches locking (write mem last [0]) config pktend
        else optionTouches locking mem config pktend

/-- `configLoop`: the test of `*s`, `get_field` and the item. -/
def configLoopTouches (locking : Bool) (pktend : Nat) : Nat → ByteMem → Nat → XvcClient → List Nat
  | 0, _, s, _ => [s]
  | k + 1, mem, s, c =>
    s ::
      if mem s ≠ 0 ∧ c.failed = false then
        let f := getField mem s pktend 44
        let r := configItem locking f.1 s pktend c
        span s (scanTo mem 44 (pktend - s) s) ++ configItemTouches locking f.1 s pktend ++
          if r.2.2 then configLoopTouches locking pktend k r.1 f.2 r.2.1 else []
      else []

/-- `configure`: the loop, with the byte at `pktend` saved, cleared and restored. -/
def configureTouches (locking : Bool) (mem : ByteMem) (s pktend : Nat) (c : XvcClient) : List Nat :=
  pktend :: configLoopTouches locking pktend (pktend - s) (write mem pktend [0]) s c

variable {mem : ByteMem} {s e pktend k config x : Nat} {c : XvcClient} {locking : Bool}

/-! ## The scans end at the NUL -/

theorem scanTo_bounds (mem : ByteMem) (b : UInt8) (hse : s ≤ e) :
    s ≤ scanTo mem b (e - s) s ∧ scanTo mem b (e - s) s ≤ e := by
  generalize hk : e - s = k
  induction k generalizing s with
  | zero =>
    rw [scanTo]
    omega
  | succ k ih =>
    rw [scanTo]
    split
    · omega
    · have := ih (s := s + 1) (by omega) (by omega)
      omega

theorem strcmpTouches_within {l : List UInt8} (hl : 0 ∉ l) (he : mem e = 0) (hse : s ≤ e)
    (hx : x ∈ strcmpTouches mem l s) : s ≤ x ∧ x ≤ e := by
  induction l generalizing s with
  | nil =>
    obtain rfl := List.mem_singleton.mp hx
    exact ⟨Nat.le_refl _, hse⟩
  | cons b l ih =>
    rcases List.mem_cons.mp hx with rfl | hx
    · exact ⟨Nat.le_refl _, hse⟩
    · split at hx
      · next hb =>
        -- The literal has no NUL, so the string goes on.
        have hne : s ≠ e := by
          rintro rfl
          exact hl (by rw [← he, hb]; exact List.mem_cons_self)
        have := ih (fun h => hl (List.mem_cons_of_mem _ h)) (by omega) hx
        omega
      · cases hx

theorem write_zero_keeps (he : mem e = 0) (a : Nat) : write mem a [0] e = 0 := by
  unfold write
  split
  · next h =>
    rw [show e - a = 0 by simp only [List.length_singleton] at h; omega]
    rfl
  · exact he

theorem optionTouches_within (he : mem pktend = 0) (hle : config ≤ pktend)
    (hx : x ∈ optionTouches locking mem config pktend) : config ≤ x ∧ x ≤ pktend := by
  unfold optionTouches at hx
  rcases List.mem_append.mp hx with hx | hx
  · exact strcmpTouches_within (by decide) he hle hx
  split at hx
  · cases hx
  rcases List.mem_append.mp hx with hx | hx
  · exact strcmpTouches_within (by decide) he hle hx
  split at hx
  · cases hx
  have hb := scanTo_bounds mem 0 hle
  have := mem_span hx
  omega

theorem configItemTouches_within (he : mem pktend = 0) (hle : config ≤ pktend)
    (hx : x ∈ configItemTouches locking mem config pktend) : config ≤ x ∧ x ≤ pktend := by
  have hassign := scanTo_bounds mem 61 hle
  have hend := scanTo_bounds mem 0 hle
  unfold configItemTouches at hx
  rcases List.mem_append.mp hx with hx | hx
  · have := mem_span hx
    omega
  split at hx
  · rcases List.mem_cons.mp hx with rfl | hx
    · exact hassign
    · exact optionTouches_within (write_zero_keeps he _) hle hx
  rcases List.mem_append.mp hx with hx | hx
  · have := mem_span hx
    omega
  split at hx
  · rcases List.mem_cons.mp hx with rfl | hx
    · omega
    · exact optionTouches_within (write_zero_keeps he _) hle hx
  · exact optionTouches_within he hle hx

/-! ## The loop keeps the NUL -/

theorem configItem_keeps_nul (locking : Bool) (c : XvcClient) (he : mem e = 0) :
    (configItem locking mem config pktend c).1 e = 0 := by
  unfold configItem
  simp only
  split
  · exact write_zero_keeps he _
  split
  · exact write_zero_keeps he _
  · exact he

/-- The next field does not begin behind the NUL. -/
theorem getField_within (b : UInt8) (he : mem pktend = 0) (hle : s ≤ pktend) :
    (getField mem s pktend b).1 pktend = 0 ∧ s ≤ (getField mem s pktend b).2 ∧
    (getField mem s pktend b).2 ≤ pktend := by
  have hscan := scanTo_bounds mem b hle
  unfold getField
  simp only
  split
  · next hne =>
    have : scanTo mem b (pktend - s) s ≠ pktend := by
      intro heq
      rw [heq] at hne
      exact hne he
    exact ⟨write_zero_keeps he _, by omega, by omega⟩
  · exact ⟨he, hscan⟩

theorem configLoopTouches_within (he : mem pktend = 0) (hle : s ≤ pktend)
    (hx : x ∈ configLoopTouches locking pktend k mem s c) : s ≤ x ∧ x ≤ pktend := by
  induction k generalizing mem s c with
  | zero =>
    obtain rfl := List.mem_singleton.mp hx
    exact ⟨Nat.le_refl _, hle⟩
  | succ k ih =>
    rcases List.mem_cons.mp hx with rfl | hx
    · exact ⟨Nat.le_refl _, hle⟩
    split at hx
    · obtain ⟨hnul, hge, hnext⟩ := getField_within 44 he hle
      rcases List.mem_append.mp hx with hx | hx
      · rcases List.mem_append.mp hx with hx | hx
        · have hscan := scanTo_bounds mem 44 hle
          have := mem_span hx
          omega
        · exact configItemTouches_within hnul hle hx
      · split at hx
        · have := ih (configItem_keeps_nul locking c hnul) hnext hx
          omega
        · cases hx
    · cases hx

/-- Every access is between the begin of the text and `pktend`. -/
theorem configureTouches_within (hle : s ≤ pktend) (hx : x ∈ configureTouches locking mem s pktend c) :
    s ≤ x ∧ x ≤ pktend := by
  rcases List.mem_cons.mp hx with rfl | hx
  · exact ⟨hle, Nat.le_refl _⟩
  · refine configLoopTouches_within ?_ hle hx
    simp [write]

/-! ## The branch -/

/-- The text of a complete `configure:` lies behind its header, and `pktend` is its end. -/
theorem configure_ends {mk : Nat → Nat → R} {s : Server σ} {cbuf q pend : Nat} {r : R} (hlen : s.bufLen ≤ s.rx.bufMax)
    (hqe : q ≤ s.cend) (hm : parseConfigure mk s cbuf q = .msg r pend) :
    let v := getUleb128 s.mem q s.cend
    mk v.1 v.2 = r ∧ q ≤ v.2 ∧ u64 (v.2 + u32 v.1) = pend ∧ v.2 ≤ pend ∧ pend ≤ s.cend := by
  intro v
  obtain ⟨hle, hr, hpend⟩ := parseConfigure_eq_msg.mp hm
  have hcend := s.cend_le hlen
  have hcur : q < v.2 ∧ v.2 ≤ max q s.cend + 1 := getUleb128_cursor s.mem q s.cend
  rw [Nat.max_eq_right hqe] at hcur
  have hu32 : u32 v.1 < 2 ^ 32 := Nat.mod_lt _ (by decide)
  have hend : u64 (v.2 + u32 v.1) = v.2 + u32 v.1 := u64_of_lt (by omega)
  refine ⟨hr, by omega, hpend, ?_, hpend ▸ hle⟩
  rw [← hpend]
  exact Nat.le_trans (Nat.le_add_right _ _) (Nat.le_of_eq hend.symm)

/-- What the branch accesses is in the receive buffer exactly when `pktend` is, and the branch leaves
everything from `pktend` on as it was. -/
theorem configure_inside_iff {s : Server σ} {p declared pend : Nat} (hbuf : s.rx.buf ≤ p) (hp : p ≤ pend)
    (hend : u64 (p + u32 declared) = pend) :
    ((∀ a ∈ configureTouches locking s.mem p pend s.c, s.rx.buf ≤ a ∧ a < s.rx.buf + s.rx.bufMax) ∧
        ∀ a, pend ≤ a → (execConfigure locking s declared p).mem a = s.mem a) ↔
      pend < s.rx.buf + s.rx.bufMax := by
  constructor
  · rintro ⟨hin, -⟩
    exact (hin pend List.mem_cons_self).2
  · intro hlt
    refine ⟨?_, ?_⟩
    · intro a ha
      have := configureTouches_within hp ha
      omega
    · intro a ha
      obtain ⟨n, rfl⟩ : ∃ n, pend = p + n := ⟨pend - p, by omega⟩
      obtain ⟨-, hframe⟩ := configure_spec locking s.mem p n s.c
      unfold execConfigure
      rw [hend]
      generalize configure locking s.mem p (p + n) s.c = r at hframe
      have hmem : ({ s with mem := r.1, c := r.2 } : Server σ).replyStatus.mem = r.1 :=
        congrArg (fun x : RxBuffer × Nat × ByteMem => x.2.2)
          (Server.received_replyStatus { s with mem := r.1, c := r.2 })
      rw [hmem]
      exact hframe a (.inr ha)

end Xvc
