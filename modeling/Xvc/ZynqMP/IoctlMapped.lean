import Xvc.ZynqMP.DriverBase

/-!
# What an `ioctl` reaches

`char_ctrl_ioctl` hands `db_ptrs[char_index]` to `xil_xvc_ioctl` without looking at it, and the character
device is there from `cdev_add` to `cdev_del`. `ioctl_reaches_mapping_iff` says when that is a mapping: from
the moment that `probe` has stored one in the entry, until `remove` comes to it.

`Moment` is that statement, `EntryInv` the invariant behind it. It fails only where `remove` has unmapped
an entry and not yet cleared it.
-/

namespace Xvc
namespace ZynqMP

open Ledger KernelCall Program

/-! ## The statement -/

/-- Whether an entry has its mapping after an event. -/
def EntryEvent.after (i : Nat) (b : Bool) : EntryEvent → Bool
  | stored j (.valid _) => if j = i then true else b
  | stored j _ | unmapped j | cleared j => if j = i then false else b

/-- The last thing that was done to entry `i` was to store a mapping. -/
def Mapped (i : Nat) (l : List EntryEvent) : Bool := l.foldl (EntryEvent.after i) false

/-- `xil_xvc_ioctl` is only called with what is mapped at this moment. -/
def IoctlAction.Safe (s : Driver) : IoctlAction → Prop
  | xilXvcIoctl p => ∃ a, p = .valid a ∧ 0 < balance s.ledger (.mapping a)
  | _ => True

def Moment (s : Driver) : Prop :=
  ∀ i, Mapped i s.entries = true ↔ ∃ a, s.dbPtrs i = .valid a ∧ 0 < balance s.ledger (.mapping a)

@[simp] theorem Mapped_append (i : Nat) (l : List EntryEvent) (e : EntryEvent) :
    Mapped i (l ++ [e]) = e.after i (Mapped i l) := by
  simp [Mapped]

/-! ## The invariant -/

/-- Entries and mappings belong together. -/
structure EntryInv (s : Driver) : Prop where
  held : ∀ i a, s.dbPtrs i = .valid a → balance s.ledger (.mapping a) = 1
  live : ∀ i, Mapped i s.entries = true ↔ ∃ a, s.dbPtrs i = .valid a
  inj : ∀ i j a, s.dbPtrs i = .valid a → s.dbPtrs j = .valid a → i = j

theorem EntryInv.moment {s : Driver} (h : EntryInv s) : Moment s := fun i => by
  rw [h.live i]
  constructor
  · rintro ⟨a, ha⟩
    exact ⟨a, ha, by rw [h.held i a ha]; decide⟩
  · rintro ⟨a, ha, -⟩
    exact ⟨a, ha⟩

/-- The `devm` mappings are those of the devices `owners`, and without a resource of its own no device
has any. -/
structure Inv (cfg : Config) (owners : List Nat) (s : Driver) : Prop extends EntryInv s where
  owned : ∀ e ∈ s.devres, e.1 ∈ owners
  devres_nil : cfg ≠ .byRes → s.devres = []
  single : cfg = .byRes → ∀ i, i ≠ 0 → s.dbPtrs i = .null

theorem Inv.owners_mono {cfg : Config} {o o' : List Nat} {s : Driver} (h : Inv cfg o s) (ho : ∀ d ∈ o, d ∈ o') :
    Inv cfg o' s := { h with owned := fun e he => ho _ (h.owned e he) }

/-- What the entries and the mappings are does not change. -/
structure Frame (s t : Driver) : Prop where
  dbPtrs : t.dbPtrs = s.dbPtrs
  entries : t.entries = s.entries
  bound : t.bound = s.bound
  devres : t.devres = s.devres
  mapping : ∀ a, balance t.ledger (.mapping a) = balance s.ledger (.mapping a)

theorem Frame.refl (s : Driver) : Frame s s := ⟨rfl, rfl, rfl, rfl, fun _ => rfl⟩

theorem Frame.trans {s t u : Driver} (h : Frame s t) (h' : Frame t u) : Frame s u :=
  ⟨h'.dbPtrs.trans h.dbPtrs, h'.entries.trans h.entries, h'.bound.trans h.bound, h'.devres.trans h.devres,
    fun a => (h'.mapping a).trans (h.mapping a)⟩

theorem Frame.inv {cfg : Config} {o : List Nat} {s t : Driver} (h : Frame s t) (hi : Inv cfg o s) : Inv cfg o t where
  held i a ha := by rw [h.mapping]; exact hi.held i a (by rw [← h.dbPtrs]; exact ha)
  live i := by rw [h.entries, h.dbPtrs]; exact hi.live i
  inj i j a := by rw [h.dbPtrs]; exact hi.inj i j a
  owned := by rw [h.devres]; exact hi.owned
  devres_nil := by rw [h.devres]; exact hi.devres_nil
  single := by rw [h.dbPtrs]; exact hi.single

/-- An entry of the ledger that is no mapping. -/
theorem frame_op {s : Driver} {o : Op Resource} (h : ∀ a, o ≠ .acquire (.mapping a) ∧ o ≠ .release (.mapping a)) :
    Frame s (s.op o) := by
  refine ⟨rfl, rfl, rfl, rfl, fun a => ?_⟩
  obtain ⟨h1, h2⟩ := h a
  cases o <;> simp_all [Driver.op]

theorem frame_acquirePtr {s : Driver} {r : Nat → Resource} (h : ∀ x a, r x ≠ .mapping a) (p : Ptr) :
    Frame s (s.acquirePtr r p) := by
  cases p with
  | valid x => exact frame_op fun a => by simp [h x a]
  | _ => exact .refl s

theorem frame_releasePtr {s : Driver} {r : Nat → Resource} (h : ∀ x a, r x ≠ .mapping a) (p : Ptr) :
    Frame s (s.releasePtr r p) := by
  cases p with
  | valid x => exact frame_op fun a => by simp [h x a]
  | _ => exact .refl s

theorem frame_nodes {s t : Driver} (h : s.NodesOnly t) : Frame s t :=
  ⟨h.dbPtrs, h.entries, h.bound, h.devres, fun a => h.other (.mapping a) (by simp)⟩

/-- `xil_xvc_cleanup` touches no entry. -/
theorem cleanup_frame {I : Driver → Prop} {s : Driver} (hI : ∀ t, Frame s t → I t) :
    xilXvcCleanup.Always kernel I (fun _ t => Frame s t) s := by
  have hdel : ∀ t, Frame s t → Frame s (t.op (.release .cdev)) := fun t h => h.trans (frame_op (by simp))
  have hregion : ∀ t, Frame s t → Frame s (t.op (.release .region)) := fun t h => h.trans (frame_op (by simp))
  simp only [xilXvcCleanup, always_read_bind]
  split
  · exact .refl s
  · have hcls : Frame s (s.releasePtr .cls s.xvcDevClass) := frame_releasePtr (by simp) _
    have hgone : Frame s { s.releasePtr .cls s.xvcDevClass with nodes := [] } :=
      hcls.trans ⟨rfl, rfl, rfl, rfl, fun _ => rfl⟩
    have hnull : Frame s { s.releasePtr .cls s.xvcDevClass with
        xvcDevClass := .null
        nodes := [] } := hcls.trans ⟨rfl, rfl, rfl, rfl, fun _ => rfl⟩
    simp only [always_ask_bind, always_modify_bind]
    refine fun _ _ => ⟨hI _ hgone, hI _ hnull, ?_⟩
    split
    · exact fun _ _ => ⟨hI _ (hdel _ hnull), fun _ _ => ⟨hI _ (hregion _ (hdel _ hnull)), hregion _ (hdel _ hnull)⟩⟩
    · exact fun _ _ => ⟨hI _ (hregion _ hnull), hregion _ hnull⟩

/-! ## The stores -/

theorem fresh_ne {s : Driver} (h : EntryInv s) {p : Ptr} (hp : s.Fresh .mapping p) (i a : Nat)
    (ha : s.dbPtrs i = .valid a) : p ≠ .valid a := fun he => by
  have h1 := h.held i a ha
  rw [hp a he] at h1
  exact absurd h1 (by decide)

/-- A mapping that is not stored yet. -/
theorem EntryInv.acquire {s : Driver} (h : EntryInv s) {p : Ptr} (hp : s.Fresh .mapping p) :
    EntryInv (s.acquirePtr .mapping p) := by
  cases p with
  | valid b =>
    refine ⟨fun i a ha => ?_, h.live, h.inj⟩
    have hne : b ≠ a := fun hb => fresh_ne h hp i a ha (by rw [hb])
    simp [Driver.acquirePtr, Driver.op, hne, h.held i a ha]
  | _ => exact h

/-- `probe` stores it in an entry. -/
theorem EntryInv.store {s : Driver} (h : EntryInv s) {p : Ptr} (hp : s.Fresh .mapping p) (i : Nat) :
    EntryInv ((s.acquirePtr .mapping p).store i p) := by
  have hacq := h.acquire hp
  have hold : (s.acquirePtr .mapping p).dbPtrs = s.dbPtrs := s.acquirePtr_dbPtrs _ _
  refine ⟨fun j a ha => ?_, fun j => ?_, fun j k a hj hk => ?_⟩
  · by_cases hj : j = i
    · obtain rfl : p = .valid a := by simpa [Driver.store, hj] using ha
      have hzero := hp a rfl
      simp [Driver.store, Driver.acquirePtr, Driver.op, hzero]
    · exact hacq.held j a (by simpa [Driver.store, hj] using ha)
  · have hlive := hacq.live j
    rw [hold] at hlive
    by_cases hj : j = i
    · cases p <;> simp [Driver.store, EntryEvent.after, hj]
    · cases p <;> simpa [Driver.store, EntryEvent.after, hj, Ne.symm hj, hold] using hlive
  · simp only [Driver.store, hold] at hj hk
    by_cases hji : j = i <;> by_cases hki : k = i <;> simp only [hji, hki, if_true, if_false] at hj hk
    · rw [hji, hki]
    · exact absurd hj (fresh_ne h hp k a hk)
    · exact absurd hk (fresh_ne h hp j a hj)
    · exact h.inj j k a hj hk

/-- `remove` has unmapped an entry. -/
theorem EntryInv.unmapped {s : Driver} (h : EntryInv s) (i : Nat) :
    Moment { s.releasePtr .mapping (s.dbPtrs i) with entries := s.entries ++ [.unmapped i] } := by
  intro j
  have hlive := h.live j
  cases hp : s.dbPtrs i with
  | valid b =>
    by_cases hj : j = i
    · subst hj
      have hone := h.held j b hp
      simp [EntryEvent.after, Driver.releasePtr, Driver.op, hp, hone]
    · have hother : ∀ a, s.dbPtrs j = .valid a → b ≠ a := fun a ha hb => hj (h.inj j i a ha (by rw [hp, hb]))
      simp only [Mapped_append, EntryEvent.after, Ne.symm hj, if_false, hlive, Driver.releasePtr, Driver.op,
        balance_release]
      constructor
      · rintro ⟨a, ha⟩
        exact ⟨a, ha, by simp [h.held j a ha, hother a ha]⟩
      · rintro ⟨a, ha, -⟩
        exact ⟨a, ha⟩
  | _ =>
    by_cases hj : j = i
    · subst hj
      simp [EntryEvent.after, Driver.releasePtr, hp]
    · simpa [EntryEvent.after, Driver.releasePtr, Ne.symm hj] using h.moment j

/-- `remove` clears an entry, which it may have unmapped before. -/
theorem EntryInv.clear {s t : Driver} (h : EntryInv s) (i : Nat) (hptrs : t.dbPtrs = s.dbPtrs)
    (hentries : ∀ j, j ≠ i → Mapped j t.entries = Mapped j s.entries)
    (hheld : ∀ j a, j ≠ i → s.dbPtrs j = .valid a → balance t.ledger (.mapping a) = balance s.ledger (.mapping a)) :
    EntryInv (t.clear i) := by
  refine ⟨fun j a ha => ?_, fun j => ?_, fun j k a hj hk => ?_⟩
  · by_cases hj : j = i
    · simp [Driver.clear, hj] at ha
    · have ha' : s.dbPtrs j = .valid a := by simpa [Driver.clear, hj, hptrs] using ha
      exact (hheld j a hj ha').trans (h.held j a ha')
  · by_cases hj : j = i
    · simp [Driver.clear, EntryEvent.after, hj]
    · simpa [Driver.clear, EntryEvent.after, hj, Ne.symm hj, hptrs, hentries j hj] using h.live j
  · simp only [Driver.clear, hptrs] at hj hk
    by_cases hji : j = i <;> by_cases hki : k = i <;> simp only [hji, hki, if_true, if_false, reduceCtorEq] at hj hk
    exact h.inj j k a hj hk

/-- `probe` stores the error of `devm_ioremap_resource`. -/
theorem Inv.store_err {o : List Nat} {s : Driver} (h : Inv .byRes o s) (e : Int) :
    Inv .byRes o (s.store 0 (.err e)) where
  toEntryInv := h.toEntryInv.store (p := .err e) (by simp [Driver.Fresh]) 0
  owned := h.owned
  devres_nil := h.devres_nil
  single hc i hi := by simp [Driver.store, hi, h.single hc i hi]

/-- `probe` stores a mapping of the device. -/
theorem Inv.store_devm {o : List Nat} {s : Driver} {pdev a : Nat} (h : Inv .byRes o s)
    (he : EntryInv ((s.acquirePtr .mapping (.valid a)).store 0 (.valid a))) :
    Inv .byRes (pdev :: o)
      (Driver.store { s.op (.acquire (.mapping a)) with devres := s.devres ++ [(pdev, a)] } 0 (.valid a)) where
  held := he.held
  live := he.live
  inj := he.inj
  owned e hmem := by
    rcases List.mem_append.mp hmem with hold | hnew
    · exact List.mem_cons_of_mem _ (h.owned e hold)
    · rw [List.mem_singleton.mp hnew]
      exact List.mem_cons_self
  devres_nil hc := absurd rfl hc
  single hc i hi := by simp [Driver.store, Driver.op, hi, h.single hc i hi]

/-- `remove` clears an entry, without unmapping it. -/
theorem Inv.clear {cfg : Config} {o : List Nat} {s : Driver} (h : Inv cfg o s) (i : Nat) : Inv cfg o (s.clear i) where
  toEntryInv := h.toEntryInv.clear i rfl (fun _ _ => rfl) fun _ _ _ _ => rfl
  owned := h.owned
  devres_nil := h.devres_nil
  single hc j hj := by simp [Driver.clear, h.single hc j hj]

/-- `remove` unmaps and clears an entry. -/
theorem Inv.unmap {l : List DbConfig} {o : List Nat} {s : Driver} (h : Inv (.user l) o s) (i : Nat) :
    Inv (.user l) o
      (Driver.clear { s.releasePtr .mapping (s.dbPtrs i) with entries := s.entries ++ [.unmapped i] } i) where
  toEntryInv := by
    refine h.toEntryInv.clear i (by simp) (fun j hj => by simp [EntryEvent.after, Ne.symm hj]) fun j a hj ha => ?_
    cases hp : s.dbPtrs i with
    | valid b =>
      have hne : b ≠ a := fun hb => hj (h.inj j i a ha (by rw [hp, hb]))
      simp [Driver.releasePtr, Driver.op, hne]
    | _ => rfl
  owned := by simpa [Driver.clear] using h.owned
  devres_nil := by simpa [Driver.clear] using h.devres_nil
  single hc := by simp at hc

/-- The driver core releases the mappings of a device: it has none, or none is stored any more. -/
theorem Inv.devresRelease {cfg : Config} {o o' : List Nat} {s : Driver} {pdev : Nat} (h : Inv cfg o s)
    (hnone : s.devres.filter (·.1 = pdev) = [] ∨ ∀ i a, s.dbPtrs i ≠ .valid a) (ho : ∀ d ∈ o, d ≠ pdev → d ∈ o') :
    Inv cfg o' (kernelEffect (devresRelease pdev) () s) where
  held i a ha := by
    rcases hnone with hnil | hnull
    · simpa [kernelEffect, hnil] using h.held i a ha
    · exact absurd ha (hnull i a)
  live := h.live
  inj := h.inj
  owned e he := by
    obtain ⟨hmem, hne⟩ := List.mem_filter.mp he
    exact ho _ (h.owned e hmem) (by simpa using hne)
  devres_nil hc := by simp [kernelEffect, h.devres_nil hc]
  single := h.single

/-! ## The programs -/

/-- What `probe` leaves: a mapping of the device itself only when it is going to be bound. -/
def Probed (cfg : Config) (pdev : Nat) (s : Driver) (ret : Int) (t : Driver) : Prop :=
  t.bound = s.bound ∧ Inv cfg (pdev :: s.bound) t ∧ (ret ≠ 0 → Inv cfg s.bound t)

theorem Probed.of_inv {cfg : Config} {pdev : Nat} {s t : Driver} {ret : Int} (h : Inv cfg s.bound t)
    (hb : t.bound = s.bound) : Probed cfg pdev s ret t :=
  ⟨hb, h.owners_mono fun _ hd => List.mem_cons_of_mem _ hd, fun _ => h⟩

theorem cleanup_probed {cfg : Config} {pdev : Nat} {s t : Driver} (h : Inv cfg s.bound t)
    (k : Unit → Prog Int) (hk : ∀ u, Frame t u → (k ()).Always kernel Moment (Probed cfg pdev s) u) :
    (xilXvcCleanup >>= k).Always kernel Moment (Probed cfg pdev s) t :=
  .bind ((cleanup_frame fun _ hf => (hf.inv h).moment).mono fun _ u hu => hk u hu)

/-- The loop of `probe`, by induction on the entries that are left; with the device's own resource there is
only one. -/
theorem probeLoop_keeps {cfg : Config} {pdev : Nat} {s : Driver} (status : Int) (left i : Nat) {t : Driver}
    (hone : cfg = .byRes → left + i ≤ 1) (h : Inv cfg s.bound t) (hb : t.bound = s.bound) :
    (probeLoop cfg pdev status left i).Always kernel Moment (Probed cfg pdev s) t := by
  induction left generalizing i t with
  | zero => exact .of_inv h hb
  | succ left ih =>
    have hnext : ∀ u : Driver, Inv cfg s.bound u → u.bound = s.bound →
        (probeLoop cfg pdev status left (i + 1)).Always kernel Moment (Probed cfg pdev s) u :=
      fun _ => ih (i + 1) fun hc => by have := hone hc; omega
    rw [probeLoop, always_read_bind]
    split
    · rw [always_ask_bind]
      intro device _
      have hnode : Frame t (kernel.effect (deviceCreate t.xvcDevClass i (iocDeviceName cfg i)) device t) :=
        frame_nodes (t.addNode_nodesOnly i device)
      refine ⟨(hnode.inv h).moment, ?_⟩
      generalize kernel.effect (deviceCreate t.xvcDevClass i (iocDeviceName cfg i)) device t = u at hnode
      have hu := hnode.inv h
      have hub : u.bound = s.bound := hnode.bound.trans hb
      split
      · exact cleanup_probed hu _ fun v hv => .of_inv (hv.inv hu) (hv.bound.trans hub)
      · cases cfg with
        | user l =>
          simp only [remap, always_ask_bind, always_modify_bind]
          rintro p ⟨-, hfresh⟩
          have hstored := hu.toEntryInv.store hfresh i
          have hinv : Inv (.user l) s.bound ((u.acquirePtr .mapping p).store i p) :=
            ⟨hstored, by simpa [Driver.store] using hu.owned, by simpa [Driver.store] using hu.devres_nil, by simp⟩
          have hbound : ((u.acquirePtr .mapping p).store i p).bound = s.bound := by simp [Driver.store, hub]
          refine ⟨(hu.toEntryInv.acquire hfresh).moment, hstored.moment, ?_⟩
          show Program.Always kernel _ _ (if _ then _ else _) ((u.acquirePtr .mapping p).store i p)
          split
          · exact .of_inv hinv hbound
          · exact hnext _ hinv hbound
        | byRes =>
          obtain ⟨rfl, rfl⟩ : left = 0 ∧ i = 0 := by have := hone rfl; omega
          intro res _
          have hres : Frame u { u with dbRes := res } := ⟨rfl, rfl, rfl, rfl, fun _ => rfl⟩
          have hv := hres.inv hu
          refine ⟨hu.moment, hv.moment, ?_⟩
          rintro p ⟨hnull, hfresh, -⟩
          have hstored := hv.toEntryInv.store hfresh 0
          cases p with
          | null => exact absurd rfl hnull
          | err e => exact ⟨hv.moment, hstored.moment, .of_inv (hv.store_err e) hub⟩
          | valid a =>
            refine ⟨(hv.toEntryInv.acquire hfresh).moment, hstored.moment, hub, ?_, fun hret => absurd rfl hret⟩
            exact hv.store_devm hstored
    · exact hnext _ h hb

theorem probe_keeps {cfg : Config} {pdev : Nat} {s : Driver} (h : Inv cfg s.bound s) :
    (probe cfg pdev).Always kernel Moment (Probed cfg pdev s) s := by
  have hloop : ∀ status u, Frame s u →
      (probeLoop cfg pdev status cfg.count 0).Always kernel Moment (Probed cfg pdev s) u := fun status u hu =>
    probeLoop_keeps status _ 0 (fun hc => by rw [hc]; decide) (hu.inv h) hu.bound
  rw [probe, always_ask_bind]
  intro status _
  refine ⟨h.moment, ?_⟩
  show Program.Always kernel _ _ (if _ then _ else _) s
  split
  · rw [always_ask_bind]
    intro cls _
    have hcls : Frame s (s.acquirePtr .cls cls) := frame_acquirePtr (by simp) cls
    have hset : Frame s { s.acquirePtr .cls cls with xvcDevClass := cls } :=
      hcls.trans ⟨rfl, rfl, rfl, rfl, fun _ => rfl⟩
    rw [always_modify_bind]
    refine ⟨(hcls.inv h).moment, (hset.inv h).moment, ?_⟩
    show Program.Always kernel _ _ (if _ then _ else _) { s.acquirePtr .cls cls with xvcDevClass := cls }
    generalize ({ s.acquirePtr .cls cls with xvcDevClass := cls } : Driver) = t at hset
    split
    · exact cleanup_probed (hset.inv h) _ fun v hv =>
        .of_inv (hv.inv (hset.inv h)) (hv.bound.trans hset.bound)
    · rw [always_modify_bind]
      have howner : Frame s { t with cdevOwner := true } := hset.trans ⟨rfl, rfl, rfl, rfl, fun _ => rfl⟩
      refine ⟨(howner.inv h).moment, ?_⟩
      generalize ({ t with cdevOwner := true } : Driver) = u at howner
      rw [always_ask_bind]
      intro (status : Int) _
      have hadd : Frame s (kernel.effect cdevAdd status u) := by
        show Frame s (if status = 0 then u.op (.acquire .cdev) else u)
        split
        · exact howner.trans (frame_op (by simp))
        · exact howner
      refine ⟨(hadd.inv h).moment, ?_⟩
      generalize kernel.effect cdevAdd status u = v at hadd
      split
      · exact cleanup_probed (hadd.inv h) _ fun x hx => .of_inv (hx.inv (hadd.inv h)) (hx.bound.trans hadd.bound)
      · exact hloop status v hadd
  · exact hloop status s (.refl s)

/-- The loop of `remove`, by induction on the entries that are left: those before `i` are `NULL`. -/
theorem removeLoop_keeps {cfg : Config} {s : Driver} (left i : Nat) {t : Driver} (h : Inv cfg s.bound t)
    (hb : t.bound = s.bound) (hnull : ∀ j, j < i → t.dbPtrs j = .null) :
    (removeLoop cfg left i).Always kernel Moment
      (fun _ u => Inv cfg s.bound u ∧ u.bound = s.bound ∧ ∀ j, j < i + left → u.dbPtrs j = .null) t := by
  induction left generalizing i t with
  | zero => exact ⟨h, hb, hnull⟩
  | succ left ih =>
    have hnext : ∀ u : Driver, Inv cfg s.bound u → u.bound = s.bound → (∀ j, j < i + 1 → u.dbPtrs j = .null) →
        (removeLoop cfg left (i + 1)).Always kernel Moment
          (fun _ u => Inv cfg s.bound u ∧ u.bound = s.bound ∧ ∀ j, j < i + (left + 1) → u.dbPtrs j = .null) u := by
      intro u h1 h2 h3
      rw [show i + (left + 1) = i + 1 + left by omega]
      exact ih (i + 1) h1 h2 h3
    rw [removeLoop, always_read_bind]
    split
    · -- The entry is unmapped, or left to the driver core, cleared, and its device destroyed.
      have hrest : ∀ u : Driver, Inv cfg s.bound (u.clear i) → u.dbPtrs = t.dbPtrs → u.bound = s.bound →
          (ask (deviceDestroy t.xvcDevClass i) >>= fun _ => removeLoop cfg left (i + 1)).Always kernel Moment
            (fun _ u => Inv cfg s.bound u ∧ u.bound = s.bound ∧ ∀ j, j < i + (left + 1) → u.dbPtrs j = .null)
            (u.clear i) := by
        intro u hu hptrs hub
        rw [always_ask_bind]
        intro _ _
        have hdestroy : Frame (u.clear i) (kernel.effect (deviceDestroy t.xvcDevClass i) () (u.clear i)) :=
          frame_nodes ((u.clear i).removeNode_nodesOnly i t.xvcDevClass)
        refine ⟨(hdestroy.inv hu).moment, hnext _ (hdestroy.inv hu) (hdestroy.bound.trans hub) fun j hj => ?_⟩
        rw [hdestroy.dbPtrs]
        by_cases hji : j = i
        · simp [Driver.clear, hji]
        · simp [Driver.clear, hji, hptrs, hnull j (by omega)]
      cases cfg with
      | user l =>
        intro _ _
        exact ⟨h.toEntryInv.unmapped i, (h.unmap i).moment,
          hrest _ (h.unmap i) (t.releasePtr_dbPtrs _ _) ((t.releasePtr_bound _ _).trans hb)⟩
      | byRes => exact ⟨(h.clear i).moment, hrest t (h.clear i) rfl hb⟩
    · rename_i hi
      refine hnext t h hb fun j hj => ?_
      by_cases hji : j = i
      · rw [hji]
        exact not_not.mp hi
      · exact hnull j (by omega)

theorem bindDevice_keeps {cfg : Config} {pdev : Nat} {s : Driver} (h : Inv cfg s.bound s) (hnew : pdev ∉ s.bound) :
    (bindDevice cfg pdev).Always kernel Moment (fun _ t => Inv cfg t.bound t) s := by
  refine .bind ((probe_keeps h).mono fun ret t ht => ?_)
  obtain ⟨hb, hown, hfail⟩ := ht
  split
  · have hbound : Inv cfg (pdev :: t.bound) { t with bound := pdev :: t.bound } := by
      rw [hb]
      exact { hown with }
    exact ⟨hbound.moment, hbound⟩
  · rename_i hret
    have hinv := hfail hret
    have hnil : t.devres.filter (·.1 = pdev) = [] := by
      refine List.filter_eq_nil_iff.mpr fun e he heq => hnew ?_
      rw [← of_decide_eq_true heq]
      exact hinv.owned e he
    have hrelease : Inv cfg s.bound (kernelEffect (devresRelease pdev) () t) :=
      hinv.devresRelease (.inl hnil) fun _ hd _ => hd
    intro _ _
    exact ⟨hrelease.moment, by rw [← hb] at hrelease; exact hrelease⟩

theorem detachDevice_keeps {cfg : Config} {pdev : Nat} {s : Driver} (h : Inv cfg s.bound s) :
    (detachDevice cfg pdev).Always kernel Moment (fun _ t => Inv cfg t.bound t) s := by
  refine .bind ((removeLoop_keeps cfg.count 0 h rfl (fun _ hj => absurd hj (Nat.not_lt_zero _))).mono fun _ t ht => ?_)
  obtain ⟨hinv, hb, hnull⟩ := ht
  have hnone : t.devres.filter (·.1 = pdev) = [] ∨ ∀ i a, t.dbPtrs i ≠ .valid a := by
    cases cfg with
    | user l => exact .inl (by rw [hinv.devres_nil (by simp)]; rfl)
    | byRes =>
      refine .inr fun i a hi => ?_
      have hzero : t.dbPtrs i = .null := by
        by_cases h0 : i = 0
        · exact hnull i (by rw [h0]; decide)
        · exact hinv.single rfl i h0
      rw [hzero] at hi
      cases hi
  have hrelease : Inv cfg (s.bound.erase pdev) (kernelEffect (devresRelease pdev) () t) :=
    hinv.devresRelease hnone fun d hd hne => (List.mem_erase_of_ne hne).mpr hd
  rw [always_ask_bind]
  intro _ _
  refine ⟨hrelease.moment, ?_⟩
  have hdetached : Inv cfg (t.bound.erase pdev)
      { kernelEffect (devresRelease pdev) () t with bound := t.bound.erase pdev } := by
    rw [hb]
    exact { hrelease with }
  exact ⟨hdetached.moment, hdetached⟩

theorem detachAll_keeps {cfg : Config} (l : List Nat) {s : Driver} (h : Inv cfg s.bound s) :
    (detachAll cfg l).Always kernel Moment (fun _ t => Inv cfg t.bound t) s := by
  induction l generalizing s with
  | nil => exact h
  | cons pdev l ih => exact .bind ((detachDevice_keeps h).mono fun _ _ ht => ih ht)

theorem load_keeps {cfg : Config} {s : Driver} (h : Inv cfg s.bound s) :
    (Job.load.body cfg).Always kernel Moment (fun _ t => Inv cfg t.bound t) s := by
  have hend : ∀ (t : Driver) (stage : Stage), Inv cfg s.bound t → t.bound = s.bound →
      Moment { t with stage := stage } ∧ Inv cfg t.bound { t with stage := stage } := fun t stage ht hb => by
    rw [← hb] at ht
    exact ⟨ht.moment, { ht with }⟩
  refine .bind (Q := fun _ t => Inv cfg t.bound t) ?_
  rw [xilXvcInit, always_ask_bind]
  intro (err : Int) _
  have halloc : Frame s (kernel.effect allocChrdevRegion err s) := by
    show Frame s (if err = 0 then s.op (.acquire .region) else s)
    split
    · exact frame_op (by simp)
    · exact .refl s
  generalize kernel.effect allocChrdevRegion err s = t at halloc
  have ht := halloc.inv h
  refine ⟨ht.moment, ?_⟩
  split
  · exact .bind ((cleanup_frame fun u hu => (hu.inv ht).moment).mono fun _ u hu =>
      hend u _ (hu.inv ht) (hu.bound.trans halloc.bound))
  · have hclear := ht.clear 0
    exact ⟨hclear.moment, fun _ _ => ⟨hclear.moment, hend _ _ hclear halloc.bound⟩⟩

theorem unload_keeps {cfg : Config} {s : Driver} (h : Inv cfg s.bound s) :
    (Job.unload.body cfg).Always kernel Moment (fun _ t => Inv cfg t.bound t) s := by
  refine .bind ?_
  rw [xilXvcExit, always_read_bind]
  refine .bind ((detachAll_keeps s.bound h).mono fun _ t ht => ?_)
  refine (cleanup_frame fun u hu => (hu.inv ht).moment).mono fun _ u hu => ?_
  have hu' := hu.inv ht
  rw [← hu.bound] at hu'
  exact ⟨hu'.moment, { hu' with }⟩

theorem job_keeps {cfg : Config} {s : Driver} {j : Job} (h : Inv cfg s.bound s) (hmay : j.May s) :
    (j.body cfg).Always kernel Moment (fun _ t => Inv cfg t.bound t) s := by
  cases j with
  | load => exact load_keeps h
  | bind pdev => exact bindDevice_keeps h hmay.2
  | detach pdev => exact detachDevice_keeps h
  | unload => exact unload_keeps h

/-- **What an `ioctl` reaches.** In every run of the module, whatever the kernel answers, and between any two
steps of its functions: an `ioctl` on minor `i` hands `xil_xvc_ioctl` what is mapped at this moment if and
only if the last thing that was done to entry `i` was to store a mapping, by `probe`. -/
theorem ioctl_reaches_mapping_iff (cfg : Config) {c : Driver × Prog Unit}
    (h : (lifecycle cfg).Reaches Driver.start c) (i : Nat) :
    (charCtrlIoctl cfg c.1 .iocXvc i).Safe c.1 ↔ Mapped i c.1.entries = true := by
  have hstart : Inv cfg Driver.start.bound Driver.start :=
    ⟨⟨by simp [Driver.start], by simp [Driver.start, Mapped], by simp [Driver.start]⟩, by simp [Driver.start],
      fun _ => rfl, fun _ _ _ => rfl⟩
  have hmoment := (Session.invariant (S := lifecycle cfg) (I := Moment) (J := fun s => Inv cfg s.bound s)
    (fun _ hs => hs.moment) (fun _ j hs hmay => job_keeps (j := j) hs hmay) hstart h).1
  exact (hmoment i).symm

/-- The module is loaded and binds a device; its entry is mapped. -/
theorem ioctl_reaches_mapping_iff_bound :
    (lifecycle .byRes).Leads (Driver.start, .done ()) fun c => (charCtrlIoctl .byRes c.1 .iocXvc 0).Safe c.1 := by
  have hrun : (lifecycle .byRes).Leads (Driver.start, .done ()) fun c => Mapped 0 c.1.entries = true := by
    refine leads_loaded ?_
    refine .step (lifecycle_start (.bind 7) ⟨rfl, by decide⟩) ?_
    refine .step (.run (.call (0 : Int) trivial)) ?_
    refine .step (.run .get) ?_
    refine .step (.run (.call (.valid 1) ⟨nofun, fun a _ => rfl⟩)) ?_
    refine .step (.run .set) ?_
    refine .step (.run .set) ?_
    refine .step (.run (.call (0 : Int) trivial)) ?_
    refine .step (.run .get) ?_
    refine .step (.run (.call (.valid 2) ⟨nofun, fun _ => ⟨⟨1, rfl⟩, rfl⟩⟩)) ?_
    refine .step (.run (.call (some ⟨0x80010000, 0x10000⟩) trivial)) ?_
    refine .step (.run .set) ?_
    refine .step (.run (.call (.valid 3) ⟨nofun, fun a _ => rfl, fun _ => rfl⟩)) ?_
    refine .step (.run .set) ?_
    exact .here (by decide)
  obtain ⟨c, hreach, hmapped⟩ := hrun
  exact ⟨c, hreach, (ioctl_reaches_mapping_iff .byRes hreach 0).mpr hmapped⟩

/-- Between `cdev_add` and `device_create`: the device is there, and the entry is `NULL`. -/
theorem ioctl_reaches_null :
    (lifecycle .byRes).Leads (Driver.start, .done ()) fun c =>
      0 < balance c.1.ledger .cdev ∧ ¬ (charCtrlIoctl .byRes c.1 .iocXvc 0).Safe c.1 := by
  refine leads_loaded ?_
  refine .step (lifecycle_start (.bind 7) ⟨rfl, by decide⟩) ?_
  refine .step (.run (.call (0 : Int) trivial)) ?_
  refine .step (.run .get) ?_
  refine .step (.run (.call (.valid 1) ⟨nofun, fun a _ => rfl⟩)) ?_
  refine .step (.run .set) ?_
  refine .step (.run .set) ?_
  refine .step (.run (.call (0 : Int) trivial)) ?_
  refine .here ⟨by decide, ?_⟩
  rintro ⟨a, ha, -⟩
  cases ha

end ZynqMP
end Xvc
