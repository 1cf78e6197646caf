import Xvc.Server.Client

/-!
# `configure:`

Both servers tokenize the configuration string in place, in the receive buffer: the byte at
`pktend` is replaced by a NUL for the time of the loop, `get_field` puts a NUL over the comma that
ends an item, and the `=` or the last character of an item is overwritten before the item is
compared with the option names.

* `configure`: that code, on the memory.
* `applyItems`: the same on the string alone, with no memory: what each item does to the client.
* `configure_spec`: the in-place code does what `applyConfig` says, and changes
  no byte outside the message.
-/

namespace Xvc

open ByteMem

/-! ## The code -/

/-- The first NUL or `c` among the `k` bytes from `s`, or the end of them (a NUL is there). -/
def scanTo (mem : ByteMem) (c : UInt8) : Nat → Nat → Nat
  | 0, s => s
  | k + 1, s => if mem s = 0 ∨ mem s = c then s else scanTo mem c k (s + 1)

/-- The C string at `s`, with a NUL at most `k` bytes on. -/
def cstr (mem : ByteMem) : Nat → Nat → List UInt8
  | 0, _ => []
  | k + 1, s => if mem s = 0 then [] else mem s :: cstr mem k (s + 1)

/-- `get_field` in a string that ends at `pktend`: the memory and the new `*sp`. -/
def getField (mem : ByteMem) (s pktend : Nat) (c : UInt8) : ByteMem × Nat :=
  let e := scanTo mem c (pktend - s) s
  if mem e ≠ 0 then (write mem e [0], e + 1) else (mem, e)

/-- The effect of an option name with its `enable` value; the flag tells that the loop goes on. -/
def applyOption (locking : Bool) (name : List UInt8) (enable : Int) (c : XvcClient) :
    XvcClient × Bool :=
  if name = ascii "locking" ∧ locking then
    if enable < 0 then (c.setError (ascii "configuration \"locking\" requires boolean + or -"), false)
    else ({ c with enableLocking := enable }, true)
  else if name = ascii "status" then
    if enable < 0 then (c.setError (ascii "configuration \"status\" requires boolean + or -"), false)
    else ({ c with enableStatus := enable }, true)
  else (c.setError (ascii "unexpected configuration: " ++ name), false)

/-- The body of the loop after `get_field`: the item starts at `config`. -/
def configItem (locking : Bool) (mem : ByteMem) (config pktend : Nat) (c : XvcClient) :
    ByteMem × XvcClient × Bool :=
  let assign := scanTo mem 61 (pktend - config) config
  if mem assign = 61 then
    let mem := write mem assign [0]
    (mem, applyOption locking (cstr mem (pktend - config) config) (-1) c)
  else
    let configLen := scanTo mem 0 (pktend - config) config - config
    if 1 < configLen then
      let last := config + configLen - 1
      let enable : Int := if mem last = 43 then 1 else if mem last = 45 then 0 else -1
      let mem := write mem last [0]
      (mem, applyOption locking (cstr mem (pktend - config) config) enable c)
    else (mem, applyOption locking (cstr mem (pktend - config) config) (-1) c)

/-- The loop over the items, with at most `k` bytes left. -/
def configLoop (locking : Bool) (pktend : Nat) : Nat → ByteMem → Nat → XvcClient → ByteMem × XvcClient
  | 0, mem, _, c => (mem, c)
  | k + 1, mem, s, c =>
    if mem s ≠ 0 ∧ c.failed = false then
      let f := getField mem s pktend 44
      let r := configItem locking f.1 s pktend c
      if r.2.2 then configLoop locking pktend k r.1 f.2 r.2.1 else (r.1, r.2.1)
    else (mem, c)

/-- The `configure:` branch between the completeness check and the status reply. -/
def configure (locking : Bool) (mem : ByteMem) (s pktend : Nat) (c : XvcClient) : ByteMem × XvcClient :=
  let oldc := mem pktend
  let r := configLoop locking pktend (pktend - s) (write mem pktend [0]) s c
  (write r.1 pktend [oldc], r.2)

/-! ## The string alone -/

/-- The name that an item is compared with, and its `enable` value. -/
def optionOf (item : List UInt8) : List UInt8 × Int :=
  if 61 ∈ item then (item.takeWhile (· ≠ 61), -1)
  else if 1 < item.length then
    (item.dropLast, if item.getLast? = some 43 then 1 else if item.getLast? = some 45 then 0 else -1)
  else (item, -1)

/-- What one item does. -/
def applyItem (locking : Bool) (item : List UInt8) (c : XvcClient) : XvcClient × Bool :=
  applyOption locking (optionOf item).1 (optionOf item).2 c

/-- The items of a string without NUL, one after the other. -/
def applyItems (locking : Bool) : Nat → List UInt8 → XvcClient → XvcClient
  | 0, _, c => c
  | k + 1, l, c =>
    if l ≠ [] ∧ c.failed = false then
      let item := l.takeWhile (· ≠ 44)
      let r := applyItem locking item c
      if r.2 then applyItems locking k (l.drop (item.length + 1)) r.1 else r.1
    else c

/-- What a configuration string does to the client: its bytes up to a NUL count. -/
def applyConfig (locking : Bool) (config : List UInt8) (c : XvcClient) : XvcClient :=
  applyItems locking config.length (config.takeWhile (· ≠ 0)) c

/-! ## The code does what the string says -/

variable {mem : ByteMem} {s pktend k : Nat} {l item : List UInt8} {c : XvcClient} {locking : Bool}

/-- The bytes `l` lie at `s` and none of them is a NUL. -/
structure Spells (mem : ByteMem) (s : Nat) (l : List UInt8) : Prop where
  bytes : slice mem s l.length = l
  noNul : ∀ b ∈ l, b ≠ 0

theorem Spells.head {b : UInt8} (h : Spells mem s (b :: l)) : mem s = b ∧ Spells mem (s + 1) l := by
  have hb := h.bytes
  simp only [List.length_cons, slice_succ, List.cons.injEq] at hb
  exact ⟨hb.1, hb.2, fun x hx => h.noNul x (List.mem_cons_of_mem b hx)⟩

theorem Spells.append {l' : List UInt8} (h : Spells mem s (l ++ l')) :
    Spells mem s l ∧ Spells mem (s + l.length) l' := by
  have hb := h.bytes
  rw [List.length_append] at hb
  obtain ⟨h1, h2, -⟩ := slice_eq_append hb
  rw [Nat.add_sub_cancel_left] at h2
  exact ⟨⟨h1, fun b hb => h.noNul b (by simp [hb])⟩, ⟨h2, fun b hb => h.noNul b (by simp [hb])⟩⟩

/-- A spelling only depends on the bytes it covers. -/
theorem Spells.congr {m : ByteMem} (h : Spells mem s l)
    (he : ∀ a, s ≤ a → a < s + l.length → m a = mem a) : Spells m s l :=
  ⟨by rw [slice_congr fun i hi => he (s + i) (by omega) (by omega)]; exact h.bytes, h.noNul⟩

theorem scanTo_of (h : Spells mem s l) {x : UInt8} (hx : x ∉ l)
    (hend : mem (s + l.length) = 0 ∨ mem (s + l.length) = x) (hk : l.length ≤ k) :
    scanTo mem x k s = s + l.length := by
  induction l generalizing s k with
  | nil =>
    cases k with
    | zero => rfl
    | succ k => rw [scanTo, if_pos (by simpa using hend)]; rfl
  | cons b l ih =>
    obtain ⟨hb, ht⟩ := h.head
    obtain ⟨k, rfl⟩ : ∃ j, k = j + 1 := ⟨k - 1, by simp only [List.length_cons] at hk; omega⟩
    have hne : ¬ (mem s = 0 ∨ mem s = x) := by
      rw [hb]
      rintro (h0 | h0)
      · exact h.noNul b (by simp) h0
      · exact hx (by simp [h0])
    simp only [List.length_cons] at hend hk ⊢
    rw [scanTo, if_neg hne, ih ht (fun hm => hx (List.mem_cons_of_mem b hm)) (by
      rw [show s + 1 + l.length = s + (l.length + 1) by omega]; exact hend) (by omega)]
    omega

theorem cstr_of (h : Spells mem s l) (hend : mem (s + l.length) = 0) (hk : l.length ≤ k) :
    cstr mem k s = l := by
  induction l generalizing s k with
  | nil =>
    cases k with
    | zero => rfl
    | succ k => rw [cstr, if_pos (by simpa using hend)]
  | cons b l ih =>
    obtain ⟨hb, ht⟩ := h.head
    obtain ⟨k, rfl⟩ : ∃ j, k = j + 1 := ⟨k - 1, by simp only [List.length_cons] at hk; omega⟩
    simp only [List.length_cons] at hend hk
    rw [cstr, if_neg (by rw [hb]; exact h.noNul b (by simp)), hb, ih ht (by
      rw [show s + 1 + l.length = s + (l.length + 1) by omega]; exact hend) (by omega)]

/-- A string up to the first `x`: the rest starts with `x` if there is any. -/
theorem takeWhile_split (x : UInt8) (l : List UInt8) :
    x ∉ l.takeWhile (· ≠ x) ∧
      (l = l.takeWhile (· ≠ x) ∧ x ∉ l ∨ ∃ r, l = l.takeWhile (· ≠ x) ++ x :: r) := by
  induction l with
  | nil => simp
  | cons b l ih =>
    by_cases hb : b = x
    · subst hb; simp
    · rw [List.takeWhile_cons_of_pos (by simpa using hb)]
      obtain ⟨h1, h2⟩ := ih
      refine ⟨by rw [List.mem_cons, not_or]; exact ⟨Ne.symm hb, h1⟩, ?_⟩
      rcases h2 with ⟨h2, h3⟩ | ⟨r, h2⟩
      · exact .inl ⟨by rw [← h2], by simp [h3, Ne.symm hb]⟩
      · exact .inr ⟨r, by rw [List.cons_append, ← h2]⟩

/-- One item: the loop body does to the client what the item says, and stores inside it only. -/
theorem configItem_spec (locking : Bool) (c : XvcClient) (h : Spells mem s item) (hend : mem (s + item.length) = 0)
    (hle : s + item.length ≤ pktend) :
    (configItem locking mem s pktend c).2 = applyItem locking item c ∧
      ∀ a, a < s ∨ s + item.length ≤ a → (configItem locking mem s pktend c).1 a = mem a := by
  have hk : item.length ≤ pktend - s := by omega
  obtain ⟨hno, ⟨-, hnone⟩ | ⟨r, hr⟩⟩ := takeWhile_split 61 item
  · -- No `=`: `strchr` runs to the NUL.
    have hscan := scanTo_of h hnone (.inl hend) hk
    have hlen := scanTo_of h (x := 0) (fun h0 => h.noNul 0 h0 rfl) (.inl hend) hk
    unfold configItem applyItem optionOf
    simp only [hscan, hend, hlen, Nat.add_sub_cancel_left, hnone, ↓reduceIte,
      show (0 : UInt8) ≠ 61 by decide]
    split
    · next h1 =>
      obtain ⟨pre, last, rfl⟩ : ∃ pre last, item = pre ++ [last] :=
        ⟨item.dropLast, item.getLast (by rintro rfl; simp at h1), (List.dropLast_concat_getLast _).symm⟩
      simp only [List.length_append, List.length_singleton] at *
      obtain ⟨hpre, hlast⟩ := h.append
      have hat : s + (pre.length + 1) - 1 = s + pre.length := by omega
      rw [hat, hlast.head.1, List.dropLast_concat, List.getLast?_concat]
      have hw : ∀ a, a ≠ s + pre.length → write mem (s + pre.length) [0] a = mem a :=
        fun a ha => write_of_disjoint mem [0] (by simp only [List.length_singleton]; omega)
      have hz : write mem (s + pre.length) [0] (s + pre.length) = 0 := by simp [write]
      have hs := hpre.congr (m := write mem (s + pre.length) [0]) fun a _ ha => hw a (by omega)
      refine ⟨?_, fun a ha => hw a (by omega)⟩
      rw [cstr_of hs hz (by omega)]
      simp only [Option.some.injEq]
    · refine ⟨?_, fun _ _ => rfl⟩
      rw [cstr_of h hend hk]
  · -- `=` at the end of the name.
    generalize hname : item.takeWhile (· ≠ 61) = name at hno hr
    have hmem : 61 ∈ item := by rw [hr]; simp
    subst hr
    simp only [List.length_append, List.length_cons] at *
    obtain ⟨hn, htail⟩ := h.append
    have heq := htail.head.1
    have hscan := scanTo_of hn hno (.inr heq) (k := pktend - s) (by omega)
    unfold configItem applyItem optionOf
    simp only [hscan, heq, hmem, ↓reduceIte]
    have hw : ∀ a, a ≠ s + name.length → write mem (s + name.length) [0] a = mem a :=
      fun a ha => write_of_disjoint mem [0] (by simp only [List.length_singleton]; omega)
    have hz : write mem (s + name.length) [0] (s + name.length) = 0 := by simp [write]
    have hs := hn.congr (m := write mem (s + name.length) [0]) fun a _ ha => hw a (by omega)
    refine ⟨?_, fun a ha => hw a (by omega)⟩
    rw [cstr_of hs hz (by omega), hname]

/-- `get_field` at an item: the field ends in a NUL, and the cursor is at what follows it. -/
theorem getField_spec (h : Spells mem s l) (hend : mem (s + l.length) = 0) (hle : s + l.length ≤ pktend)
    (hne : l ≠ []) :
    let item := l.takeWhile (· ≠ 44)
    let rest := l.drop (item.length + 1)
    let f := getField mem s pktend 44
    Spells f.1 s item ∧ f.1 (s + item.length) = 0 ∧ s + item.length ≤ f.2 ∧ s < f.2 ∧
      f.2 + rest.length ≤ pktend ∧ Spells mem f.2 rest ∧ mem (f.2 + rest.length) = 0 ∧
      s + item.length ≤ pktend ∧ ∀ a, f.2 ≤ a ∨ a < s ∨ pktend ≤ a → f.1 a = mem a := by
  intro item rest f
  have hk : item.length ≤ pktend - s := by
    have : item.length ≤ l.length := (List.takeWhile_sublist _).length_le
    omega
  obtain ⟨hno, ⟨hall, -⟩ | ⟨r, hr⟩⟩ := takeWhile_split 44 l
  · -- The last item: the string's own NUL ends it.
    have hitem : item = l := hall.symm
    have hrest : rest = [] := List.drop_eq_nil_of_le (by rw [hitem]; omega)
    have hscan : scanTo mem 44 (pktend - s) s = s + l.length :=
      scanTo_of h (by rw [hall]; exact hno) (.inl hend) (by rw [← hitem]; exact hk)
    have hf : f = (mem, s + l.length) := by simp [f, getField, hscan, hend]
    have hpos : 0 < l.length := List.length_pos_iff.mpr hne
    rw [hf, hrest, hitem]
    exact ⟨h, hend, Nat.le_refl _, by simpa using hpos, by simpa using hle, ⟨rfl, by simp⟩,
      by simpa using hend, hle, fun _ _ => rfl⟩
  · -- A comma ends it: `get_field` puts a NUL there.
    change l = item ++ 44 :: r at hr
    have hrest : rest = r := by simp only [rest]; rw [hr]; simp
    have hlen : l.length = item.length + (r.length + 1) := by rw [hr]; simp
    rw [hr] at h
    obtain ⟨hi, htail⟩ := h.append
    obtain ⟨hcomma, hr'⟩ := htail.head
    have hscan : scanTo mem 44 (pktend - s) s = s + item.length := scanTo_of hi hno (.inr hcomma) hk
    have hf : f = (write mem (s + item.length) [0], s + item.length + 1) := by
      simp [f, getField, hscan, hcomma]
    have hw : ∀ a, a ≠ s + item.length → write mem (s + item.length) [0] a = mem a :=
      fun a ha => write_of_disjoint mem [0] (by simp only [List.length_singleton]; omega)
    rw [hf, hrest]
    refine ⟨hi.congr fun a _ ha => hw a (by omega), by simp [write], Nat.le_succ _, by simp only; omega,
      by simp only; omega, hr', ?_, by omega, fun a ha => hw a (by omega)⟩
    rw [← hend]; congr 1; simp only; omega

/-- The loop over the items, by induction on the bound: each round moves `s` past an item. -/
theorem configLoop_spec (locking : Bool) (c : XvcClient) (hk : pktend - s ≤ k) (h : Spells mem s l)
    (hend : mem (s + l.length) = 0)
    (hle : s + l.length ≤ pktend) :
    (configLoop locking pktend k mem s c).2 = applyItems locking k l c ∧
      ∀ a, a < s ∨ pktend ≤ a → (configLoop locking pktend k mem s c).1 a = mem a := by
  induction k generalizing mem s l c with
  | zero => exact ⟨rfl, fun _ _ => rfl⟩
  | succ k ih =>
    have hgo : mem s ≠ 0 ↔ l ≠ [] := by
      cases l with
      | nil => simpa using hend
      | cons b l => simp [h.head.1, h.noNul b (by simp)]
    unfold configLoop applyItems
    simp only [hgo]
    split
    · next hc =>
      obtain ⟨hitem, hnul, hge, hlt, hfit, hrest, hrnul, hile, hframe⟩ :=
        getField_spec h hend hle hc.1
      obtain ⟨heq, hmem⟩ := configItem_spec locking c hitem hnul hile
      rw [heq]
      -- Stores of the round lie before the next item.
      have hkeep : ∀ a, (getField mem s pktend 44).2 ≤ a ∨ a < s ∨ pktend ≤ a →
          (configItem locking (getField mem s pktend 44).1 s pktend c).1 a = mem a :=
        fun a ha => by rw [hmem a (by omega), hframe a ha]
      split
      · have hr' := hrest.congr (m := (configItem locking (getField mem s pktend 44).1 s pktend c).1)
          fun a ha _ => hkeep a (.inl ha)
        obtain ⟨h1, h2⟩ := ih (c := (applyItem locking (l.takeWhile (· ≠ 44)) c).1) (by omega) hr'
          (by rw [hkeep _ (.inl (by omega))]; exact hrnul) hfit
        exact ⟨h1, fun a ha => by rw [h2 a (by omega), hkeep a (by omega)]⟩
      · exact ⟨rfl, fun a ha => hkeep a (by omega)⟩
    · exact ⟨rfl, fun _ _ => rfl⟩

/-- **`configure:` in place.** On the bytes `config` at `s` the code does to the client what
`applyConfig` says, and changes no byte outside them. -/
theorem configure_spec (locking : Bool) (mem : ByteMem) (s n : Nat) (c : XvcClient) :
    (configure locking mem s (s + n) c).2 = applyConfig locking (slice mem s n) c ∧
      ∀ a, a < s ∨ s + n ≤ a → (configure locking mem s (s + n) c).1 a = mem a := by
  have hw : ∀ a, a ≠ s + n → write mem (s + n) [0] a = mem a :=
    fun a ha => write_of_disjoint mem [0] (by simp only [List.length_singleton]; omega)
  have hz : write mem (s + n) [0] (s + n) = 0 := by simp [write]
  -- The string is the operand up to its first NUL.
  have hl : Spells (write mem (s + n) [0]) s ((slice mem s n).takeWhile (· ≠ 0)) ∧
      write mem (s + n) [0] (s + ((slice mem s n).takeWhile (· ≠ 0)).length) = 0 ∧
      ((slice mem s n).takeWhile (· ≠ 0)).length ≤ n := by
    obtain ⟨hno, hsplit⟩ := takeWhile_split 0 (slice mem s n)
    have hno' : ∀ b ∈ (slice mem s n).takeWhile (· ≠ 0), b ≠ 0 := fun b hb h0 => hno (h0 ▸ hb)
    rcases hsplit with ⟨hall, -⟩ | ⟨r, hr⟩
    · have hlen : ((slice mem s n).takeWhile (· ≠ 0)).length = n := by rw [← hall]; simp
      refine ⟨⟨?_, hno'⟩, by rw [hlen, hz], by omega⟩
      rw [← hall, length_slice]
      exact slice_congr fun i hi => hw (s + i) (by omega)
    · obtain ⟨h1, h2, h3⟩ := slice_eq_append hr
      have hlt : ((slice mem s n).takeWhile (· ≠ 0)).length < n := by
        have := congrArg List.length h2
        simp only [length_slice, List.length_cons] at this
        omega
      refine ⟨⟨?_, hno'⟩, ?_, h3⟩
      · exact (slice_congr fun i hi => hw (s + i) (by omega)).trans h1
      · rw [hw _ (by omega)]
        obtain ⟨k, hk⟩ : ∃ k, n - ((slice mem s n).takeWhile (· ≠ 0)).length = k + 1 :=
          ⟨n - ((slice mem s n).takeWhile (· ≠ 0)).length - 1, by omega⟩
        rw [hk, slice_succ, List.cons.injEq] at h2
        exact h2.1
  obtain ⟨hs, hnul, hle⟩ := hl
  obtain ⟨h1, h2⟩ := configLoop_spec locking c (Nat.le_refl (s + n - s)) hs hnul
    (by omega)
  unfold configure applyConfig
  simp only
  refine ⟨by rw [h1, Nat.add_sub_cancel_left, length_slice], fun a ha => ?_⟩
  by_cases hp : a = s + n
  · subst hp; simp [write]
  · rw [write_of_disjoint _ _ (by simp only [List.length_singleton]; omega), h2 a ha, hw a hp]

/-! ## What a configuration leaves alone -/

/-- Without `lock` and `unlock` the `locking` option is not known. -/
theorem applyItem_enableLocking (item : List UInt8) (c : XvcClient) :
    (applyItem false item c).1.enableLocking = c.enableLocking := by
  unfold applyItem applyOption
  split
  · next h => exact absurd h.2 (by decide)
  split
  · split <;> rfl
  · rfl

theorem applyItems_enableLocking (k : Nat) (l : List UInt8) (c : XvcClient) :
    (applyItems false k l c).enableLocking = c.enableLocking := by
  induction k generalizing l c with
  | zero => rfl
  | succ k ih =>
    unfold applyItems
    have hitem := applyItem_enableLocking (l.takeWhile (· ≠ 44)) c
    split
    · simp only
      split
      · exact (ih _ _).trans hitem
      · exact hitem
    · rfl

theorem applyConfig_enableLocking (config : List UInt8) (c : XvcClient) :
    (applyConfig false config c).enableLocking = c.enableLocking := applyItems_enableLocking _ _ c

theorem applyOption_keeps (locking : Bool) (name : List UInt8) (enable : Int) (c : XvcClient) :
    (applyOption locking name enable c).1.locked = c.locked ∧
      ((applyOption locking name enable c).1.enableLocking = c.enableLocking ∨ locking) := by
  unfold applyOption
  split
  · next h => split <;> exact ⟨rfl, .inr h.2⟩
  split
  · split <;> exact ⟨rfl, .inl rfl⟩
  · exact ⟨rfl, .inl rfl⟩

/-- An item is one option, whatever its name. -/
theorem configItem_eq (locking : Bool) (mem : ByteMem) (config pktend : Nat) (c : XvcClient) :
    ∃ name enable, (configItem locking mem config pktend c).2 = applyOption locking name enable c := by
  unfold configItem
  simp only
  split
  · exact ⟨_, _, rfl⟩
  split
  · exact ⟨_, _, rfl⟩
  · exact ⟨_, _, rfl⟩

theorem configLoop_keeps (locking : Bool) (pktend k : Nat) (mem : ByteMem) (s : Nat) (c : XvcClient) :
    (configLoop locking pktend k mem s c).2.locked = c.locked ∧
      ((configLoop locking pktend k mem s c).2.enableLocking = c.enableLocking ∨ locking) := by
  induction k generalizing mem s c with
  | zero => exact ⟨rfl, .inl rfl⟩
  | succ k ih =>
    unfold configLoop
    split
    · simp only
      obtain ⟨name, enable, heq⟩ := configItem_eq locking (getField mem s pktend 44).1 s pktend c
      have hitem := applyOption_keeps locking name enable c
      rw [← heq] at hitem
      split
      · have hrest := ih (configItem locking (getField mem s pktend 44).1 s pktend c).1 (getField mem s pktend 44).2
          (configItem locking (getField mem s pktend 44).1 s pktend c).2.1
        refine ⟨hrest.1.trans hitem.1, ?_⟩
        rcases hrest.2 with h | h
        · rw [h]; exact hitem.2
        · exact .inr h
      · exact hitem
    · exact ⟨rfl, .inl rfl⟩

/-- A configuration does not take the lock, and only enables it when its handlers are there. -/
theorem configure_keeps (locking : Bool) (mem : ByteMem) (s pktend : Nat) (c : XvcClient) :
    (configure locking mem s pktend c).2.locked = c.locked ∧
      ((configure locking mem s pktend c).2.enableLocking = c.enableLocking ∨ locking) :=
  configLoop_keeps locking pktend _ _ s c

/-- With an error pending a configuration does nothing. -/
theorem applyConfig_of_failed (config : List UInt8) {c : XvcClient} (h : c.failed = true) :
    applyConfig locking config c = c := by
  unfold applyConfig
  cases config.length with
  | zero => rfl
  | succ k => unfold applyItems; rw [if_neg (by simp [h])]

end Xvc
