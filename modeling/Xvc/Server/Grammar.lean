import Xvc.Server.Configure

/-!
# The grammar of `configure:`

A configuration is a list of items with commas between them. Each item switches one option on or off, and
the first one that does not is an error.

* `Setting`: what an item may be. `items`, `accepted`: the items of a configuration, and those before the
  first bad one.
* `applyItem_of_read`, `applyItem_of_not_read`: the code takes an item exactly when it is a setting.
* `configure_configured`: the code in place does what `Configured` says.
-/

namespace Xvc

open ByteMem

/-- The options of a configuration. -/
inductive ConfigOption where
  | locking
  | status
  deriving DecidableEq

/-- Its name. -/
def ConfigOption.name : ConfigOption → List UInt8
  | locking => ascii "locking"
  | status => ascii "status"

/-- An option, switched on or off. -/
structure Setting where
  option : ConfigOption
  enable : Bool
  deriving DecidableEq

namespace Setting

/-- The item: the name and `+` or `-`. -/
def item (st : Setting) : List UInt8 := st.option.name ++ [if st.enable then 43 else 45]

/-- The settings that a server knows; `locking` only with both lock handlers. -/
def known (locking : Bool) : List Setting :=
  [⟨.status, true⟩, ⟨.status, false⟩] ++ if locking then [⟨.locking, true⟩, ⟨.locking, false⟩] else []

/-- The setting that an item is. -/
def read (locking : Bool) (item : List UInt8) : Option Setting := (known locking).find? fun st => st.item = item

/-- The value of the option. -/
def value (st : Setting) : Int := if st.enable then 1 else 0

/-- What the setting does to the client. -/
def apply (st : Setting) (c : XvcClient) : XvcClient :=
  match st.option with
  | .locking => { c with enableLocking := st.value }
  | .status => { c with enableStatus := st.value }

end Setting

/-- The pieces of a string between its commas; nothing behind a last comma is no piece. -/
def itemsOf (l : List UInt8) : List (List UInt8) :=
  if (l.splitOn 44).getLast? = some [] then (l.splitOn 44).dropLast else l.splitOn 44

/-- The items of a configuration, up to its first NUL. -/
def items (config : List UInt8) : List (List UInt8) := itemsOf (config.takeWhile (· ≠ 0))

/-- The settings before the first item that is none. -/
def accepted (locking : Bool) : List (List UInt8) → List Setting
  | [] => []
  | i :: is =>
    match Setting.read locking i with
    | some st => st :: accepted locking is
    | none => []

/-- The last value that is given for an option. -/
def lastValue (o : ConfigOption) (sts : List Setting) (old : Int) : Int :=
  match (sts.filter (·.option = o)).getLast? with
  | some st => st.value
  | none => old

/-- The items `is` took the client from `c` to `d`. -/
structure Configured (locking : Bool) (is : List (List UInt8)) (c d : XvcClient) : Prop where
  enableStatus : d.enableStatus = lastValue .status (accepted locking is) c.enableStatus
  enableLocking : d.enableLocking = lastValue .locking (accepted locking is) c.enableLocking
  locked : d.locked = c.locked
  error : d.failed = true ↔ ∃ i ∈ is, Setting.read locking i = none

variable {locking : Bool} {item l : List UInt8} {st : Setting} {sts : List Setting} {o : ConfigOption}
  {c d : XvcClient}

/-! ## Items -/

theorem itemsOf_nil : itemsOf [] = [] := rfl

theorem itemsOf_cons (hne : l ≠ []) :
    itemsOf l = l.takeWhile (· ≠ 44) :: itemsOf (l.drop ((l.takeWhile (· ≠ 44)).length + 1)) := by
  obtain ⟨hno, ⟨hall, hnone⟩ | ⟨r, hr⟩⟩ := takeWhile_split 44 l
  · -- No comma.
    have hdrop : l.drop ((l.takeWhile (· ≠ 44)).length + 1) = [] := List.drop_eq_nil_of_le (by rw [← hall]; omega)
    rw [hdrop, ← hall, itemsOf_nil, itemsOf, List.splitOn_eq_singleton hnone, if_neg (by simpa using hne)]
  · generalize l.takeWhile (· ≠ 44) = item at hno hr
    subst hr
    have hdrop : (item ++ 44 :: r).drop (item.length + 1) = r := by simp
    rw [hdrop]
    unfold itemsOf
    rw [List.splitOn_append_cons_self_of_not_mem hno]
    obtain ⟨x, xs, hx⟩ := List.exists_cons_of_ne_nil (List.splitOn_ne_nil 44 r)
    rw [hx, List.getLast?_cons_cons, List.dropLast_cons_cons]
    split <;> rfl

/-! ## One item -/

theorem Setting.read_eq_some (h : Setting.read locking item = some st) : st ∈ Setting.known locking ∧ st.item = item :=
  ⟨List.mem_of_find?_eq_some h, by simpa using List.find?_some h⟩

/-- A setting is applied. -/
theorem applyItem_of_read (c : XvcClient) (h : Setting.read locking item = some st) :
    applyItem locking item c = (st.apply c, true) := by
  obtain ⟨hmem, rfl⟩ := Setting.read_eq_some h
  cases locking with
  | true =>
    simp only [Setting.known, if_true, List.cons_append, List.nil_append, List.mem_cons, List.not_mem_nil,
      or_false] at hmem
    rcases hmem with rfl | rfl | rfl | rfl <;> rfl
  | false =>
    simp only [Setting.known, Bool.false_eq_true, if_false, List.append_nil, List.mem_cons, List.not_mem_nil,
      or_false] at hmem
    rcases hmem with rfl | rfl <;> rfl

/-- An `enable` value comes from a last `+` or `-`. -/
theorem optionOf_enable (h : 0 ≤ (optionOf item).2) :
    ∃ b : Bool, item = (optionOf item).1 ++ [if b then 43 else 45] := by
  revert h
  unfold optionOf
  split
  · intro h
    exact absurd h (show ¬ (0 : Int) ≤ -1 by decide)
  split
  · next hlen =>
    obtain ⟨pre, last, rfl⟩ : ∃ pre last, item = pre ++ [last] :=
      ⟨item.dropLast, item.getLast (by rintro rfl; simp at hlen), (List.dropLast_concat_getLast _).symm⟩
    rw [List.dropLast_concat, List.getLast?_concat]
    simp only [Option.some.injEq]
    split
    · next hplus =>
      intro _
      exact ⟨true, by rw [hplus]; rfl⟩
    split
    · next hminus =>
      intro _
      exact ⟨false, by rw [hminus]; rfl⟩
    · intro h
      exact absurd h (show ¬ (0 : Int) ≤ -1 by decide)
  · intro h
    exact absurd h (show ¬ (0 : Int) ≤ -1 by decide)

/-- Any other item is an error, and leaves the options as they are. -/
theorem applyItem_of_not_read (c : XvcClient) (h : Setting.read locking item = none) :
    ∃ b t, b ≠ 0 ∧ applyItem locking item c = (c.setError (b :: t), false) := by
  have hno : ∀ st ∈ Setting.known locking, st.item ≠ item := by
    intro st hst heq
    have := List.find?_eq_none.mp h st hst
    exact this (by simpa using heq)
  unfold applyItem applyOption
  split
  · next hname =>
    split
    · exact ⟨_, _, by decide, rfl⟩
    · next hen =>
      obtain ⟨b, hb⟩ := optionOf_enable (not_lt.mp hen)
      rw [hname.1] at hb
      exact absurd hb.symm (hno ⟨.locking, b⟩ (by rw [hname.2]; cases b <;> decide))
  split
  · next hname =>
    split
    · exact ⟨_, _, by decide, rfl⟩
    · next hen =>
      obtain ⟨b, hb⟩ := optionOf_enable (not_lt.mp hen)
      rw [hname] at hb
      exact absurd hb.symm (hno ⟨.status, b⟩ (by cases b <;> simp [Setting.known]))
  · exact ⟨_, _, by decide, rfl⟩

/-! ## All items -/

theorem lastValue_cons (o : ConfigOption) (st : Setting) (sts : List Setting) (old : Int) :
    lastValue o (st :: sts) old = lastValue o sts (if st.option = o then st.value else old) := by
  unfold lastValue
  rw [List.filter_cons]
  by_cases ho : st.option = o
  · rw [if_pos (by simpa using ho), if_pos ho]
    cases hl : sts.filter (·.option = o) with
    | nil => rfl
    | cons x xs => rw [List.getLast?_cons_cons]; rfl
  · rw [if_neg (by simpa using ho), if_neg ho]

theorem lastValue_boolean {old : Int} (hold : old = 0 ∨ old = 1) :
    lastValue o sts old = 0 ∨ lastValue o sts old = 1 := by
  unfold lastValue
  split
  · next st _ =>
    unfold Setting.value
    cases st.enable
    · exact .inl rfl
    · exact .inr rfl
  · exact hold

theorem failed_setError {b : UInt8} (hb : b ≠ 0) (t : List UInt8) (c : XvcClient) :
    (c.setError (b :: t)).failed = true := by
  rw [XvcClient.failed_iff]
  exact PendingError.ofText_cons_ne_nil hb t

/-- The loop over the items, by induction on its bound. -/
theorem applyItems_configured {k : Nat} (hk : l.length ≤ k) (hc : c.failed = false) :
    Configured locking (itemsOf l) c (applyItems locking k l c) := by
  induction k generalizing l c with
  | zero =>
    obtain rfl := List.length_eq_zero_iff.mp (Nat.le_zero.mp hk)
    exact ⟨rfl, rfl, rfl, iff_of_false (by rw [applyItems, hc]; exact Bool.false_ne_true)
      (by rintro ⟨i, hi, -⟩; cases hi)⟩
  | succ k ih =>
    by_cases hne : l = []
    · subst hne
      rw [applyItems, if_neg (fun h => h.1 rfl)]
      exact ⟨rfl, rfl, rfl, iff_of_false (by rw [hc]; exact Bool.false_ne_true) (by rintro ⟨i, hi, -⟩; cases hi)⟩
    · rw [itemsOf_cons hne, applyItems, if_pos ⟨hne, hc⟩]
      have hlen : (l.drop ((l.takeWhile (· ≠ 44)).length + 1)).length ≤ k := by
        have := List.length_pos_iff.mpr hne
        rw [List.length_drop]
        omega
      generalize l.takeWhile (· ≠ 44) = i at hlen
      cases hread : Setting.read locking i with
      | some st =>
        simp only [applyItem_of_read c hread, if_true]
        have hfailed : (st.apply c).failed = false := by
          unfold Setting.apply
          split <;> exact hc
        have hrest := ih hlen hfailed
        refine ⟨?_, ?_, ?_, ?_⟩
        · rw [hrest.enableStatus, accepted, hread, lastValue_cons]
          unfold Setting.apply
          cases st.option <;> rfl
        · rw [hrest.enableLocking, accepted, hread, lastValue_cons]
          unfold Setting.apply
          cases st.option <;> rfl
        · rw [hrest.locked]
          unfold Setting.apply
          cases st.option <;> rfl
        · rw [hrest.error]
          simp [hread]
      | none =>
        obtain ⟨b, t, hb, happ⟩ := applyItem_of_not_read c hread
        simp only [happ, Bool.false_eq_true, if_false]
        refine ⟨?_, ?_, rfl, iff_of_true (failed_setError hb t c) ⟨i, List.mem_cons_self, hread⟩⟩
        · rw [accepted, hread]
          rfl
        · rw [accepted, hread]
          rfl

/-- **The code in place** does what the items of its bytes say. -/
theorem configure_configured (locking : Bool) (mem : ByteMem) (s n : Nat) (hc : c.failed = false) :
    Configured locking (items (slice mem s n)) c (configure locking mem s (s + n) c).2 := by
  rw [(configure_spec locking mem s n c).1]
  exact applyItems_configured (List.takeWhile_sublist _).length_le hc

end Xvc
