import Mathlib.Data.List.Count
import Xvc.ZynqMP.DriverBase

/-!
# The module's resources

`xil_xvc_cleanup` is called where `init`, `probe` and `exit` fail or end, and undoes what two statics tell it
to, as often as it is called. `resources_balanced` says when that is right: a resource is only released while
it is held, and none is left, in every run whose kernel calls succeed (`Succeeds`) and that ends as `Ends` says.

`expected` is what the module should hold, from its statics; `Tally` is the invariant that it does.
-/

namespace Xvc
namespace ZynqMP

open Ledger KernelCall Program

/-! ## The statement -/

/-- A resource is only released while it is held, and none is held after a failed `init` or after `exit`. -/
def Balanced (s : Driver) : Prop :=
  Sound s.ledger ∧ (s.stage = .failed ∨ s.stage = .unloaded → ∀ r, balance s.ledger r = 0)

/-- The call does not fail. `class_create` and `devm_ioremap_resource` may, and after the first there is no
class to create a device in. -/
def Succeeds : (c : KernelCall) → Answer c → Driver → Prop
  | allocChrdevRegion, (err : Int), _ | platformDriverRegister, (err : Int), _ | cdevAdd, (err : Int), _ => err = 0
  | deviceCreate cls _ _, p, _ => cls.isErr = false → p.isErr = false
  | ioremap _ _, p, _ => p ≠ .null
  | _, _, _ => True

/-- `exit` finds a class or none, and no error in the first entry of `db_ptrs` unless a device is bound. -/
def Ends (s : Driver) : Job → Prop
  | .unload => s.xvcDevClass.isErr = false ∧ ((s.dbPtrs 0).isErr = true → s.bound ≠ [])
  | _ => True

/-! ## What the module holds -/

def Ptr.isValid : Ptr → Bool
  | valid _ => true
  | _ => false

/-- What the statics and the driver core say is held. -/
def expected (cfg : Config) (s : Driver) : Resource → Nat
  | .region => 1
  | .cls a => if s.xvcDevClass = .valid a then 1 else 0
  | .cdev => if s.xvcDevClass.isValid then 1 else 0
  | .node i => if s.dbPtrs i = .null then 0 else 1
  | .mapping a =>
    match cfg with
    | .user l => (List.range l.length).countP fun i => s.dbPtrs i = .valid a
    | .byRes => s.devres.countP fun e => e.2 = a

/-- It is held, and the statics agree with each other. -/
structure Tally (cfg : Config) (s : Driver) : Prop where
  stage : s.stage = .live
  sound : Sound s.ledger
  tally : ∀ r, balance s.ledger r = expected cfg s r
  owner : s.cdevOwner = s.xvcDevClass.isValid
  classless : s.xvcDevClass.isValid = false → ∀ i, s.dbPtrs i = .null
  bounded : ∀ i, cfg.count ≤ i → s.dbPtrs i = .null
  nodes : ∀ i, i ∈ s.nodes ↔ s.dbPtrs i ≠ .null
  noErr : cfg ≠ .byRes → ∀ i, (s.dbPtrs i).isErr = false
  devres_nil : cfg ≠ .byRes → s.devres = []

/-- Between two programs: what is there, is there for a bound device. -/
structure Settled (cfg : Config) (s : Driver) : Prop extends Tally cfg s where
  owned : ∀ e ∈ s.devres, e.1 ∈ s.bound
  bound_of : ∀ i, s.dbPtrs i ≠ .null → s.bound ≠ [] ∨ (s.dbPtrs 0).isErr = true

theorem balanced_of_live {s : Driver} (hstage : s.stage = .live) (h : Sound s.ledger) : Balanced s :=
  ⟨h, fun hend => by simp [hstage] at hend⟩

theorem Tally.balanced {cfg : Config} {s : Driver} (h : Tally cfg s) : Balanced s := balanced_of_live h.stage h.sound

/-- One entry of a list of pointers changes. -/
theorem countP_update (f : Nat → Ptr) (p q : Ptr) {i n : Nat} (hi : i < n) :
    (List.range n).countP (fun j => decide ((if j = i then p else f j) = q)) + (if f i = q then 1 else 0) =
      (List.range n).countP (fun j => decide (f j = q)) + if p = q then 1 else 0 := by
  induction n with
  | zero => omega
  | succ n ih =>
    rw [List.range_succ, List.countP_append, List.countP_append]
    by_cases hin : i = n
    · subst hin
      have hsame : (List.range i).countP (fun j => decide ((if j = i then p else f j) = q)) =
          (List.range i).countP (fun j => decide (f j = q)) := by
        refine List.countP_congr fun j hj => ?_
        have hne : j ≠ i := by have := List.mem_range.mp hj; omega
        simp [hne]
      rw [hsame]
      by_cases hp : p = q <;> by_cases hf : f i = q <;> simp [hp, hf]
    · have hlast := ih (by omega)
      by_cases hf : f n = q <;> simp [Ne.symm hin, hf] at hlast ⊢ <;> omega

/-! ## One entry -/

/-- What a pointer to a mapping stands for. -/
def mappingOf : Ptr → Resource → Int
  | .valid a, r => if .mapping a = r then 1 else 0
  | _, _ => 0

theorem balance_entered (l : List (Op Resource)) (i a : Nat) (r : Resource) :
    balance (l ++ [.acquire (.node i)] ++ [.acquire (.mapping a)]) r =
      balance l r + (if .node i = r then 1 else 0) + mappingOf (.valid a) r := by
  rw [balance_acquire, balance_acquire]; rfl

/-- What `probe` and `remove` leave as it is. -/
structure Same (s t : Driver) : Prop where
  stage : t.stage = s.stage
  xvcDevClass : t.xvcDevClass = s.xvcDevClass
  cdevOwner : t.cdevOwner = s.cdevOwner
  bound : t.bound = s.bound

/-- `probe` has created the device of an entry and stored what it mapped. -/
theorem Tally.enter {cfg : Config} {s t : Driver} {i : Nat} {p : Ptr} {l : List (Nat × Nat)} (h : Tally cfg s)
    (hsame : Same s t) (hi : i < cfg.count) (hnull : s.dbPtrs i = .null) (hp : p ≠ .null)
    (hcls : s.xvcDevClass.isValid = true) (herr : cfg ≠ .byRes → p.isErr = false ∧ l = [])
    (hptrs : ∀ j, t.dbPtrs j = if j = i then p else s.dbPtrs j) (hnodes : t.nodes = i :: s.nodes)
    (hdevres : t.devres = s.devres ++ l)
    (hl : cfg = .byRes → ∀ a, (l.countP fun e => e.2 = a : Int) = mappingOf p (.mapping a)) (hsound : Sound t.ledger)
    (hbalance : ∀ r, balance t.ledger r = balance s.ledger r + (if .node i = r then 1 else 0) + mappingOf p r) :
    Tally cfg t where
  stage := hsame.stage.trans h.stage
  sound := hsound
  tally r := by
    rw [hbalance, h.tally]
    cases r with
    | region => cases p <;> simp [expected, mappingOf]
    | cls a => cases p <;> simp [expected, mappingOf, hsame.xvcDevClass]
    | cdev => cases p <;> simp [expected, mappingOf, hsame.xvcDevClass]
    | node j =>
      have hno : mappingOf p (.node j) = 0 := by cases p <;> simp [mappingOf]
      rw [hno]
      simp only [expected, hptrs]
      by_cases hji : j = i
      · simp [hji, hnull, hp]
      · simp [hji, Ne.symm hji]
    | mapping a =>
      cases cfg with
      | user l' =>
        have hupdate := countP_update s.dbPtrs p (.valid a) hi
        simp only [expected, hptrs, Config.count] at hupdate ⊢
        rw [hnull] at hupdate
        cases p with
        | valid b => by_cases hb : b = a <;> simp [mappingOf, hb] at hupdate ⊢ <;> omega
        | _ => simp [mappingOf] at hupdate ⊢; omega
      | byRes =>
        have hcount := hl rfl a
        simp only [expected, hdevres, List.countP_append]
        simp
        omega
  owner := by rw [hsame.cdevOwner, hsame.xvcDevClass]; exact h.owner
  classless hno := by rw [hsame.xvcDevClass, hcls] at hno; cases hno
  bounded j hj := by rw [hptrs, if_neg (by omega)]; exact h.bounded j hj
  nodes j := by
    rw [hnodes, hptrs, List.mem_cons, h.nodes]
    by_cases hji : j = i <;> simp [hji, hp]
  noErr hc j := by
    rw [hptrs]
    split
    · exact (herr hc).1
    · exact h.noErr hc j
  devres_nil hc := by rw [hdevres, h.devres_nil hc, (herr hc).2]; rfl

/-- `remove` has unmapped an entry, unless its mapping is the driver core's, and destroyed its device. -/
theorem Tally.leave {cfg : Config} {s t : Driver} {i : Nat} (h : Tally cfg s) (hsame : Same s t)
    (hi : s.dbPtrs i ≠ .null) (hptrs : ∀ j, t.dbPtrs j = if j = i then .null else s.dbPtrs j)
    (hnodes : t.nodes = s.nodes.filter (· ≠ i)) (hdevres : t.devres = s.devres) (hsound : Sound t.ledger)
    (hbalance : ∀ r, balance t.ledger r = balance s.ledger r - (if .node i = r then 1 else 0) -
      (match cfg with | .user _ => mappingOf (s.dbPtrs i) r | .byRes => 0)) : Tally cfg t where
  stage := hsame.stage.trans h.stage
  sound := hsound
  tally r := by
    have hcount : i < cfg.count := by
      by_contra hge
      exact hi (h.bounded i (by omega))
    rw [hbalance, h.tally]
    cases r with
    | region => cases cfg <;> cases s.dbPtrs i <;> simp [expected, mappingOf]
    | cls a => cases cfg <;> cases s.dbPtrs i <;> simp [expected, mappingOf, hsame.xvcDevClass]
    | cdev => cases cfg <;> cases s.dbPtrs i <;> simp [expected, mappingOf, hsame.xvcDevClass]
    | node j =>
      have hno : mappingOf (s.dbPtrs i) (.node j) = 0 := by cases s.dbPtrs i <;> simp [mappingOf]
      rw [hno]
      simp only [expected, hptrs]
      by_cases hji : j = i
      · cases cfg <;> simp [hji, hi]
      · cases cfg <;> simp [hji, Ne.symm hji]
    | mapping a =>
      cases cfg with
      | user l' =>
        have hupdate := countP_update s.dbPtrs .null (.valid a) hcount
        simp only [expected, hptrs, Config.count] at hupdate ⊢
        cases hp : s.dbPtrs i with
        | valid b => by_cases hb : b = a <;> simp [mappingOf, hp, hb] at hupdate ⊢ <;> omega
        | _ => simp [mappingOf, hp] at hupdate ⊢; omega
      | byRes => simp [expected, hdevres]
  owner := by rw [hsame.cdevOwner, hsame.xvcDevClass]; exact h.owner
  classless hno j := by
    rw [hsame.xvcDevClass] at hno
    exact absurd (h.classless hno i) hi
  bounded j hj := by rw [hptrs]; split <;> [rfl; exact h.bounded j hj]
  nodes j := by
    rw [hnodes, hptrs, List.mem_filter, h.nodes]
    by_cases hji : j = i <;> simp [hji]
  noErr hc j := by rw [hptrs]; split <;> [rfl; exact h.noErr hc j]
  devres_nil hc := by rw [hdevres, h.devres_nil hc]

/-- `probe` has mapped an address of its configuration for the entry. -/
theorem Tally.store_user {l : List DbConfig} {s : Driver} {i : Nat} (h : Tally (.user l) s) (hi : i < l.length)
    (hnull : s.dbPtrs i = .null) (hcls : s.xvcDevClass.isValid = true) (x a : Nat) :
    Tally (.user l) (((s.addNode i (.valid x)).op (.acquire (.mapping a))).store i (.valid a)) :=
  h.enter (l := []) ⟨rfl, rfl, rfl, rfl⟩ hi hnull (by simp) hcls (fun _ => ⟨rfl, rfl⟩) (fun _ => rfl) rfl
    (by simp [Driver.addNode, Driver.store, Driver.op]) (fun hcfg => by cases hcfg) ((h.sound.acquire _).acquire _)
    (balance_entered _ _ _)

/-- It has mapped the resource of the device. -/
theorem Tally.store_devm {s : Driver} (h : Tally .byRes s) (hnull : s.dbPtrs 0 = .null)
    (hcls : s.xvcDevClass.isValid = true) (res : Option MemRes) (pdev x a : Nat) :
    Tally .byRes
      (Driver.store
        { (Driver.op { s.addNode 0 (.valid x) with dbRes := res } (.acquire (.mapping a))) with
          devres := s.devres ++ [(pdev, a)] } 0 (.valid a)) :=
  h.enter (l := [(pdev, a)]) ⟨rfl, rfl, rfl, rfl⟩ (by decide) hnull (by simp) hcls (fun hcfg => absurd rfl hcfg)
    (fun _ => rfl) rfl rfl (fun _ a' => by by_cases ha : a = a' <;> simp [mappingOf, ha])
    ((h.sound.acquire _).acquire _) (balance_entered _ _ _)

/-- It stores the error of `devm_ioremap_resource`. -/
theorem Tally.store_err {s : Driver} (h : Tally .byRes s) (hnull : s.dbPtrs 0 = .null)
    (hcls : s.xvcDevClass.isValid = true) (res : Option MemRes) (x : Nat) (e : Int) :
    Tally .byRes (Driver.store { s.addNode 0 (.valid x) with dbRes := res } 0 (.err e)) :=
  h.enter (l := []) ⟨rfl, rfl, rfl, rfl⟩ (by decide) hnull (by simp) hcls (fun hcfg => absurd rfl hcfg)
    (fun _ => rfl) rfl (by simp [Driver.addNode, Driver.store, Driver.op]) (fun _ _ => rfl) (h.sound.acquire _)
    (fun r => (balance_acquire _ r _).trans (Int.add_zero _).symm)

/-- `remove` unmaps an entry and destroys its device. -/
theorem Tally.unmap {l : List DbConfig} {s : Driver} {i a : Nat} (h : Tally (.user l) s) (hp : s.dbPtrs i = .valid a)
    (hsound : Sound (s.ledger ++ [.release (.mapping a)] ++ [.release (.node i)])) :
    Tally (.user l)
      { s.clear i with
        nodes := s.nodes.filter (· ≠ i)
        ledger := s.ledger ++ [.release (.mapping a)] ++ [.release (.node i)]
        entries := s.entries ++ [.unmapped i] ++ [.cleared i] } :=
  h.leave ⟨rfl, rfl, rfl, rfl⟩ (by simp [hp]) (fun _ => rfl) rfl rfl hsound fun r => by
    rw [balance_release, balance_release, hp]
    simp only [mappingOf]
    omega

/-- It destroys the device; the mapping is the driver core's. -/
theorem Tally.destroy {s : Driver} {i : Nat} (h : Tally .byRes s) (hi : s.dbPtrs i ≠ .null)
    (hsound : Sound (s.ledger ++ [.release (.node i)])) :
    Tally .byRes
      { s.clear i with
        nodes := s.nodes.filter (· ≠ i)
        ledger := s.ledger ++ [.release (.node i)] } :=
  h.leave ⟨rfl, rfl, rfl, rfl⟩ hi (fun _ => rfl) rfl rfl hsound fun r => by
    rw [balance_release]
    exact (Int.sub_zero _).symm

/-- The driver core releases the mappings of a device. -/
theorem Tally.devresRelease {cfg : Config} {s : Driver} (h : Tally cfg s) (pdev : Nat) :
    Tally cfg (kernelEffect (devresRelease pdev) () s) := by
  have hmap : (s.devres.filter (·.1 = pdev)).map (fun e => Op.release (Resource.mapping e.2)) =
      ((s.devres.filter (·.1 = pdev)).map fun e => Resource.mapping e.2).map .release := by
    rw [List.map_map]; rfl
  have hcount : ∀ a, ((s.devres.filter (·.1 = pdev)).map fun e => Resource.mapping e.2).count (.mapping a) =
      (s.devres.filter (·.1 = pdev)).countP fun e => e.2 = a := fun a => by
    rw [List.count, List.countP_map]
    exact List.countP_congr fun e _ => by simp
  have hother : ∀ r, (∀ a, r ≠ .mapping a) →
      ((s.devres.filter (·.1 = pdev)).map fun e => Resource.mapping e.2).count r = 0 := fun r hr =>
    List.count_eq_zero.mpr fun hmem => by
      obtain ⟨e, -, he⟩ := List.mem_map.mp hmem
      exact hr e.2 he.symm
  have hsplit : ∀ a, s.devres.countP (fun e => e.2 = a) = (s.devres.filter (·.1 = pdev)).countP (fun e => e.2 = a) +
      (s.devres.filter (·.1 ≠ pdev)).countP fun e => e.2 = a := fun a => by
    induction s.devres with
    | nil => rfl
    | cons e l ih => by_cases hd : e.1 = pdev <;> simp [List.countP_cons, hd, ih] <;> omega
  have hbalance : ∀ r, balance (kernelEffect (KernelCall.devresRelease pdev) () s).ledger r =
      balance s.ledger r - ((s.devres.filter (·.1 = pdev)).map fun e => Resource.mapping e.2).count r := fun r => by
    simp only [kernelEffect, hmap, balance_releases]
  cases cfg with
  | user l =>
    have hnil := h.devres_nil (by simp)
    refine ⟨h.stage, ?_, fun r => ?_, h.owner, h.classless, h.bounded, h.nodes, h.noErr, ?_⟩
    · simpa [kernelEffect, hnil] using h.sound
    · simpa [kernelEffect, hnil, expected] using h.tally r
    · simp [kernelEffect, hnil]
  | byRes =>
    refine ⟨h.stage, ?_, fun r => ?_, h.owner, h.classless, h.bounded, h.nodes, h.noErr, fun hc => absurd rfl hc⟩
    · show Sound (s.ledger ++ _)
      rw [hmap]
      refine h.sound.releases fun r hr => ?_
      obtain ⟨e, -, rfl⟩ := List.mem_map.mp hr
      have hall := hsplit e.2
      rw [hcount, h.tally]
      simp only [expected]
      omega
    · rw [hbalance, h.tally]
      cases r with
      | mapping a =>
        have hall := hsplit a
        rw [hcount]
        simp only [expected, kernelEffect]
        omega
      | _ => rw [hother _ (by simp)]; simp [expected, kernelEffect]

/-! ## The programs -/

/-- The kernel whose calls succeed. -/
def careful : World Driver KernelCall Answer :=
  { kernel with answers := fun c r s => kernelAnswers c r s ∧ Succeeds c r s }

/-- What `probe` leaves when it returns `ret`; `b` are the devices that are bound. -/
structure Entered (cfg : Config) (pdev : Nat) (b : List Nat) (ret : Int) (t : Driver) : Prop extends Tally cfg t where
  bound : t.bound = b
  owned : ∀ e ∈ t.devres, e.1 ∈ pdev :: b
  failed : ret ≠ 0 → (∀ e ∈ t.devres, e.1 ∈ b) ∧ ∀ i, t.dbPtrs i ≠ .null → b ≠ [] ∨ (t.dbPtrs 0).isErr = true

/-- After `class_create` has failed there is nothing. -/
theorem Entered.of_classless {cfg : Config} {pdev : Nat} {b : List Nat} {ret : Int} {t : Driver} (h : Tally cfg t)
    (hb : t.bound = b) (hown : ∀ e ∈ t.devres, e.1 ∈ b) (hcls : t.xvcDevClass.isValid = false) :
    Entered cfg pdev b ret t where
  toTally := h
  bound := hb
  owned e he := List.mem_cons_of_mem _ (hown e he)
  failed _ := ⟨hown, fun i hi => absurd (h.classless hcls i) hi⟩

/-- `xil_xvc_cleanup` does nothing while `xvc_dev_class` is an error. -/
theorem cleanup_of_isErr {w : World Driver KernelCall Answer} {I : Driver → Prop} {α : Type} {Q : α → Driver → Prop}
    {s : Driver} (hcls : s.xvcDevClass.isErr = true) (k : Unit → Prog α) (h : (k ()).Always w I Q s) :
    (xilXvcCleanup >>= k).Always w I Q s := by
  refine .bind ?_
  rw [xilXvcCleanup, always_read_bind, if_pos hcls]
  exact h

theorem probeLoop_tally {cfg : Config} {pdev : Nat} {b : List Nat} (status : Int) (left i : Nat) {t : Driver}
    (hcount : i + left = cfg.count) (hone : cfg = .byRes → left + i ≤ 1) (h : Tally cfg t) (hb : t.bound = b)
    (hown : ∀ e ∈ t.devres, e.1 ∈ b) (hcls : t.xvcDevClass ≠ .null) :
    (probeLoop cfg pdev status left i).Always careful Balanced (Entered cfg pdev b) t := by
  induction left generalizing i t with
  | zero => exact ⟨h, hb, fun e he => List.mem_cons_of_mem _ (hown e he), fun hret => absurd rfl hret⟩
  | succ left ih =>
    have hnext : ∀ u : Driver, Tally cfg u → u.bound = b → (∀ e ∈ u.devres, e.1 ∈ b) → u.xvcDevClass ≠ .null →
        (probeLoop cfg pdev status left (i + 1)).Always careful Balanced (Entered cfg pdev b) u :=
      fun _ => ih (i + 1) (by omega) fun hc => by have := hone hc; omega
    rw [probeLoop, always_read_bind]
    split
    · rename_i hnull
      rw [always_ask_bind]
      rintro device ⟨⟨hne, hvalid⟩, hsucc⟩
      cases hc : t.xvcDevClass with
      | null => exact absurd hc hcls
      | err e =>
        cases device with
        | null => exact absurd rfl hne
        | valid x =>
          obtain ⟨⟨a, ha⟩, -⟩ := hvalid ⟨x, rfl⟩
          rw [hc] at ha
          cases ha
        | err e' =>
          have herr : t.xvcDevClass.isErr = true := by rw [hc]; rfl
          have hno : t.xvcDevClass.isValid = false := by rw [hc]; rfl
          exact ⟨h.balanced, cleanup_of_isErr herr _ (.of_classless h hb hown hno)⟩
      | valid c =>
        cases device with
        | null => exact absurd rfl hne
        | err e' =>
          have hfalse := hsucc (by rw [hc]; rfl)
          cases hfalse
        | valid x =>
          have hnode : Sound (t.ledger ++ [.acquire (.node i)]) := h.sound.acquire _
          refine ⟨balanced_of_live h.stage hnode, ?_⟩
          have hvalidcls : t.xvcDevClass.isValid = true := by rw [hc]; rfl
          cases cfg with
          | user l =>
            rintro p ⟨⟨herr, -⟩, hpnull⟩
            cases p with
            | null => exact absurd rfl hpnull
            | err e => cases herr
            | valid a =>
              have hlt : i < (Config.user l).count := by omega
              have hent := h.store_user hlt hnull hvalidcls x a
              exact ⟨balanced_of_live h.stage hent.sound, hent.balanced, hnext _ hent hb hown hcls⟩
          | byRes =>
            obtain ⟨rfl, rfl⟩ : left = 0 ∧ i = 0 := by have := hone rfl; omega
            intro res _
            refine ⟨balanced_of_live h.stage hnode, balanced_of_live h.stage hnode, ?_⟩
            rintro p ⟨⟨hpnull, -⟩, -⟩
            cases p with
            | null => exact absurd rfl hpnull
            | err e =>
              have hent := h.store_err hnull hvalidcls res x e
              refine ⟨balanced_of_live h.stage hnode, hent.balanced, hent, hb,
                fun e' he => List.mem_cons_of_mem _ (hown e' he), fun _ => ⟨hown, fun j _ => .inr rfl⟩⟩
            | valid a =>
              have hent := h.store_devm hnull hvalidcls res pdev x a
              refine ⟨balanced_of_live h.stage hent.sound, hent.balanced, hent, hb, fun e he => ?_,
                fun hret => absurd rfl hret⟩
              rcases List.mem_append.mp he with hold | hnew
              · exact List.mem_cons_of_mem _ (hown e hold)
              · rw [List.mem_singleton.mp hnew]
                exact List.mem_cons_self
    · exact hnext t h hb hown hcls

/-- `class_create` has failed. -/
theorem Tally.classFailed {cfg : Config} {s : Driver} (h : Tally cfg s) (hcls : s.xvcDevClass = .null) (e : Int) :
    Tally cfg { s with xvcDevClass := .err e } where
  stage := h.stage
  sound := h.sound
  tally r := by rw [h.tally]; cases r <;> simp [expected, hcls, Ptr.isValid]
  owner := by rw [h.owner, hcls]; rfl
  classless _ := h.classless (by rw [hcls]; rfl)
  bounded := h.bounded
  nodes := h.nodes
  noErr := h.noErr
  devres_nil := h.devres_nil

/-- The class and the character device are there. -/
theorem Tally.classCreated {cfg : Config} {s : Driver} (h : Tally cfg s) (hcls : s.xvcDevClass = .null) (a : Nat) :
    Tally cfg
      { s with
        xvcDevClass := .valid a
        cdevOwner := true
        ledger := s.ledger ++ [.acquire (.cls a)] ++ [.acquire .cdev] } where
  stage := h.stage
  sound := (h.sound.acquire _).acquire _
  tally r := by
    rw [balance_acquire, balance_acquire, h.tally]
    cases r <;> simp [expected, hcls, Ptr.isValid]
  owner := rfl
  classless hno := by cases hno
  bounded := h.bounded
  nodes := h.nodes
  noErr := h.noErr
  devres_nil := h.devres_nil

theorem probe_tally {cfg : Config} {pdev : Nat} {s : Driver} (h : Settled cfg s) :
    (probe cfg pdev).Always careful Balanced (Entered cfg pdev s.bound) s := by
  have hone : cfg = .byRes → cfg.count + 0 ≤ 1 := fun hc => by rw [hc]; decide
  rw [probe, always_ask_bind]
  intro status _
  refine ⟨h.balanced, ?_⟩
  show Program.Always careful _ _ (if _ then _ else _) s
  split
  · rename_i hnull
    rintro cls ⟨⟨hne, -⟩, -⟩
    cases cls with
    | null => exact absurd rfl hne
    | err e =>
      have herr := h.classFailed hnull e
      exact ⟨h.balanced, herr.balanced, cleanup_of_isErr rfl _ (.of_classless herr rfl h.owned rfl)⟩
    | valid a =>
      have hcls : Sound (s.ledger ++ [.acquire (.cls a)]) := h.sound.acquire _
      have hadded := h.classCreated hnull a
      refine ⟨balanced_of_live h.stage hcls, balanced_of_live h.stage hcls, balanced_of_live h.stage hcls, ?_⟩
      rintro status ⟨-, hzero⟩
      cases hzero
      exact ⟨hadded.balanced,
        probeLoop_tally 0 cfg.count 0 (Nat.zero_add _) hone hadded rfl h.owned
          (by show Ptr.valid a ≠ .null; simp)⟩
  · rename_i hcls
    exact probeLoop_tally status cfg.count 0 (Nat.zero_add _) hone h.toTally rfl h.owned hcls

theorem Tally.mapping_held {l : List DbConfig} {s : Driver} {i a : Nat} (h : Tally (.user l) s)
    (hi : s.dbPtrs i = .valid a) : 0 < balance s.ledger (.mapping a) := by
  have hcount : i < l.length := by
    by_contra hge
    have hnull := h.bounded i (by simpa [Config.count] using hge)
    rw [hi] at hnull
    cases hnull
  have hpos : 0 < (List.range l.length).countP fun j => s.dbPtrs j = .valid a :=
    List.countP_pos_iff.mpr ⟨i, List.mem_range.mpr hcount, by simp [hi]⟩
  rw [h.tally]
  simp only [expected]
  omega

theorem Tally.node_held {cfg : Config} {s : Driver} {i : Nat} (h : Tally cfg s) (hi : s.dbPtrs i ≠ .null) :
    0 < balance s.ledger (.node i) := by
  rw [h.tally]
  simp [expected, hi]

/-- What `remove` leaves as it is, besides. -/
structure Kept (s t : Driver) : Prop where
  bound : t.bound = s.bound
  devres : t.devres = s.devres
  xvcDevClass : t.xvcDevClass = s.xvcDevClass

theorem removeLoop_tally {cfg : Config} {s : Driver} (left i : Nat) {t : Driver}
    (h : Tally cfg t) (hkept : Kept s t) (hnull : ∀ j, j < i → t.dbPtrs j = .null) :
    (removeLoop cfg left i).Always careful Balanced
      (fun _ u => Tally cfg u ∧ Kept s u ∧ ∀ j, j < i + left → u.dbPtrs j = .null) t := by
  induction left generalizing i t with
  | zero => exact ⟨h, hkept, hnull⟩
  | succ left ih =>
    have hnext : ∀ u : Driver, Tally cfg u → Kept s u → (∀ j, j < i + 1 → u.dbPtrs j = .null) →
        (removeLoop cfg left (i + 1)).Always careful Balanced
          (fun _ u => Tally cfg u ∧ Kept s u ∧ ∀ j, j < i + (left + 1) → u.dbPtrs j = .null) u := by
      intro u h1 h2 h3
      rw [show i + (left + 1) = i + 1 + left by omega]
      exact ih (i + 1) h1 h2 h3
    rw [removeLoop, always_read_bind]
    split
    · rename_i hi
      obtain ⟨c, hc⟩ : ∃ c, t.xvcDevClass = .valid c := by
        cases hcls : t.xvcDevClass with
        | valid c => exact ⟨c, rfl⟩
        | _ => exact absurd (h.classless (by rw [hcls]; rfl) i) hi
      -- The device of the entry is one of this class.
      have hdestroy : ∀ (r : Unit) (u : Driver), u.nodes = t.nodes → careful.effect (deviceDestroy (.valid c) i) r u =
          { u.op (.release (.node i)) with nodes := u.nodes.filter (· ≠ i) } := fun _ u hu =>
        Driver.removeNode_of_mem (by rw [hu]; exact (h.nodes i).mpr hi) c
      have hcleared : ∀ u : Driver, (∀ j, u.dbPtrs j = if j = i then .null else t.dbPtrs j) →
          ∀ j, j < i + 1 → u.dbPtrs j = .null := fun u hu j hj => by
        rw [hu]
        split <;> [rfl; exact hnull j (by omega)]
      cases cfg with
      | user l =>
        cases hp : t.dbPtrs i with
        | null => exact absurd hp hi
        | err e =>
          have hno := h.noErr (by simp) i
          rw [hp] at hno
          cases hno
        | valid a =>
          have hmap : Sound (t.ledger ++ [.release (.mapping a)]) := h.sound.release (h.mapping_held hp)
          have hnode : Sound (t.ledger ++ [.release (.mapping a)] ++ [.release (.node i)]) :=
            hmap.release (by rw [balance_release]; simpa using h.node_held hi)
          have hleft := h.unmap hp hnode
          rw [hc]
          intro _ _
          refine ⟨balanced_of_live h.stage hmap, balanced_of_live h.stage hmap, fun _ _ => ?_⟩
          rw [hdestroy]
          · refine ⟨hleft.balanced, ?_⟩
            exact hnext _ hleft ⟨hkept.bound, hkept.devres, hkept.xvcDevClass⟩ (hcleared _ fun _ => rfl)
          · rfl
      | byRes =>
        have hnode : Sound (t.ledger ++ [.release (.node i)]) := h.sound.release (h.node_held hi)
        have hleft := h.destroy hi hnode
        rw [hc]
        refine ⟨balanced_of_live h.stage h.sound, fun _ _ => ?_⟩
        rw [hdestroy]
        · refine ⟨hleft.balanced, ?_⟩
          exact hnext _ hleft ⟨hkept.bound, hkept.devres, hkept.xvcDevClass⟩ (hcleared _ fun _ => rfl)
        · rfl
    · rename_i hi
      refine hnext t h hkept fun j hj => ?_
      by_cases hji : j = i
      · rw [hji]
        exact not_not.mp hi
      · exact hnull j (by omega)

theorem bindDevice_settled {cfg : Config} {pdev : Nat} {s : Driver} (h : Settled cfg s) :
    (bindDevice cfg pdev).Always careful Balanced (fun _ t => Settled cfg t) s := by
  refine .bind ((probe_tally h).mono fun ret t ht => ?_)
  split
  · have hbound : Settled cfg { t with bound := pdev :: t.bound } :=
      ⟨{ ht.toTally with }, by rw [ht.bound]; exact ht.owned, fun _ _ => .inl (List.cons_ne_nil _ _)⟩
    exact ⟨hbound.balanced, hbound⟩
  · rename_i hret
    obtain ⟨hown, hbound⟩ := ht.failed hret
    have hrelease := ht.toTally.devresRelease pdev
    intro _ _
    refine ⟨hrelease.balanced, hrelease, fun e he => ?_, fun i hi => ?_⟩
    · show e.1 ∈ t.bound
      rw [ht.bound]
      exact hown e (List.mem_of_mem_filter he)
    · show t.bound ≠ [] ∨ _
      rw [ht.bound]
      exact hbound i hi

/-- What `remove` leaves of a device: nothing. -/
theorem detachDevice_settled {cfg : Config} {pdev : Nat} {s : Driver} (h : Settled cfg s) :
    (detachDevice cfg pdev).Always careful Balanced
      (fun _ t => Settled cfg t ∧ t.bound = s.bound.erase pdev ∧ t.xvcDevClass = s.xvcDevClass ∧
        ∀ i, t.dbPtrs i = .null) s := by
  refine .bind ((removeLoop_tally cfg.count 0 h.toTally ⟨rfl, rfl, rfl⟩
    (fun _ hj => absurd hj (Nat.not_lt_zero _))).mono
    fun _ t ht => ?_)
  obtain ⟨htally, ⟨hb, hd, hcls⟩, hnull⟩ := ht
  have hall : ∀ i, t.dbPtrs i = .null := fun i => by
    by_cases hi : i < cfg.count
    · exact hnull i (by omega)
    · exact htally.bounded i (by omega)
  have hrelease := htally.devresRelease pdev
  rw [always_ask_bind]
  intro _ _
  have hdetached : Settled cfg
      { kernelEffect (devresRelease pdev) () t with bound := t.bound.erase pdev } := by
    refine ⟨{ hrelease with }, fun e he => ?_, fun i hi => absurd (hall i) hi⟩
    obtain ⟨hmem, hne⟩ := List.mem_filter.mp he
    rw [hd] at hmem
    show e.1 ∈ t.bound.erase pdev
    rw [hb]
    exact (List.mem_erase_of_ne (by simpa using hne)).mpr (h.owned e hmem)
  exact ⟨hrelease.balanced, hdetached.balanced, hdetached, by rw [← hb]; rfl, hcls, hall⟩

/-- `platform_driver_unregister`, by induction on the devices that are bound. -/
theorem detachAll_settled {cfg : Config} (l : List Nat) {s : Driver} (h : Settled cfg s) (hb : s.bound = l)
    (hnull : l = [] → ∀ i, s.dbPtrs i = .null) :
    (detachAll cfg l).Always careful Balanced
      (fun _ t => Settled cfg t ∧ t.bound = [] ∧ t.xvcDevClass = s.xvcDevClass ∧ ∀ i, t.dbPtrs i = .null) s := by
  induction l generalizing s with
  | nil => exact ⟨h, hb, rfl, hnull rfl⟩
  | cons pdev l ih =>
    refine .bind ((detachDevice_settled h).mono fun _ t ht => ?_)
    obtain ⟨hsettled, hbound, hcls, hall⟩ := ht
    rw [hb, List.erase_cons_head] at hbound
    rw [← hcls]
    exact ih hsettled hbound fun _ => hall

/-- `xil_xvc_cleanup` when nothing but the class, the character device and the region is left. -/
theorem cleanup_balanced {cfg : Config} {s : Driver} (h : Tally cfg s) (hcls : s.xvcDevClass.isErr = false)
    (hnull : ∀ i, s.dbPtrs i = .null) (hdevres : s.devres = []) :
    xilXvcCleanup.Always careful Balanced
      (fun _ t => t.stage = .live ∧ Sound t.ledger ∧ ∀ r, balance t.ledger r = 0) s := by
  have hmapping : ∀ a, expected cfg s (.mapping a) = 0 := fun a => by
    cases cfg <;> simp [expected, hnull, hdevres]
  have hregion : 0 < balance s.ledger .region := by rw [h.tally]; simp [expected]
  rw [xilXvcCleanup, always_read_bind, if_neg (by simp [hcls])]
  cases hc : s.xvcDevClass with
  | err e => rw [hc] at hcls; cases hcls
  | null =>
    have howner : s.cdevOwner = false := by rw [h.owner, hc]; rfl
    have hend := h.sound.release hregion
    intro _ _
    refine ⟨h.balanced, h.balanced, ?_⟩
    rw [if_neg (by simp [howner])]
    intro _ _
    refine ⟨balanced_of_live h.stage hend, h.stage, hend, fun r => ?_⟩
    show balance (s.ledger ++ [.release .region]) r = 0
    rw [balance_release, h.tally]
    cases r with
    | mapping a => rw [hmapping]; simp
    | _ => simp [expected, hc, Ptr.isValid, hnull]
  | valid a =>
    have howner : s.cdevOwner = true := by rw [h.owner, hc]; rfl
    have hcls' : Sound (s.ledger ++ [.release (.cls a)]) := h.sound.release (by rw [h.tally]; simp [expected, hc])
    have hcdev : Sound (s.ledger ++ [.release (.cls a)] ++ [.release .cdev]) :=
      hcls'.release (by rw [balance_release, h.tally]; simp [expected, hc, Ptr.isValid])
    have hend : Sound (s.ledger ++ [.release (.cls a)] ++ [.release .cdev] ++ [.release .region]) :=
      hcdev.release (by rw [balance_release, balance_release]; simpa using hregion)
    intro _ _
    refine ⟨balanced_of_live h.stage hcls', balanced_of_live h.stage hcls', ?_⟩
    rw [if_pos howner]
    intro _ _
    refine ⟨balanced_of_live h.stage hcdev, fun _ _ => ⟨balanced_of_live h.stage hend, h.stage, hend, fun r => ?_⟩⟩
    show balance (s.ledger ++ [.release (.cls a)] ++ [.release .cdev] ++ [.release .region]) r = 0
    rw [balance_release, balance_release, balance_release, h.tally]
    cases r with
    | mapping x => rw [hmapping]; simp
    | _ => simp [expected, hc, Ptr.isValid, hnull]

/-! ## The runs -/

/-- Before `init`, between two programs, and after `exit`. -/
def Rests (cfg : Config) (s : Driver) : Prop :=
  match s.stage with
  | .fresh => s = Driver.start
  | .live => Settled cfg s
  | .failed => False
  | .unloaded => Balanced s

theorem Rests.balanced {cfg : Config} {s : Driver} (h : Rests cfg s) : Balanced s := by
  unfold Rests at h
  split at h
  · rw [h]
    exact ⟨sound_nil, fun hend => by simp [Driver.start] at hend⟩
  · exact h.toTally.balanced
  · exact h.elim
  · exact h

theorem Settled.rests {cfg : Config} {s : Driver} (h : Settled cfg s) : Rests cfg s := by
  unfold Rests
  rw [h.stage]
  exact h

theorem load_rests {cfg : Config} : (Job.load.body cfg).Always careful Balanced (fun _ => Rests cfg) Driver.start := by
  have hsound : Sound [Op.acquire Resource.region] := sound_nil.acquire (l := []) _
  have hfresh : ∀ s : Driver, s.stage = .fresh → Sound s.ledger → Balanced s := fun s hs h =>
    ⟨h, fun hend => by simp [hs] at hend⟩
  have hnull : ∀ i, Driver.loaded.dbPtrs i = .null := fun i => by simp [Driver.loaded, Driver.clear, Driver.start]
  have htally : ∀ r, balance [Op.acquire Resource.region] r = expected cfg Driver.loaded r := fun r => by
    cases r with
    | mapping a => cases cfg <;> simp [balance, expected, Driver.loaded, Driver.clear, Driver.start]
    | _ => simp [balance, expected, Driver.loaded, Driver.clear, Driver.start, Ptr.isValid]
  have hloaded : Settled cfg Driver.loaded :=
    ⟨⟨rfl, hsound, htally, rfl, fun _ => hnull, fun i _ => hnull i,
      fun i => iff_of_false List.not_mem_nil (not_not_intro (hnull i)), fun _ i => by rw [hnull]; rfl, fun _ => rfl⟩,
      fun _ he => absurd he List.not_mem_nil, fun i hi => absurd (hnull i) hi⟩
  rintro err ⟨-, hzero⟩
  cases hzero
  refine ⟨hfresh _ rfl hsound, hfresh _ rfl hsound, ?_⟩
  rintro err ⟨-, hzero⟩
  cases hzero
  exact ⟨hfresh _ rfl hsound, hloaded.toTally.balanced, hloaded.rests⟩

theorem unload_rests {cfg : Config} {s : Driver} (h : Settled cfg s) (hend : Ends s .unload) :
    (Job.unload.body cfg).Always careful Balanced (fun _ => Rests cfg) s := by
  obtain ⟨hcls, herr⟩ := hend
  have hnull : s.bound = [] → ∀ i, s.dbPtrs i = .null := fun hb i => by
    by_contra hi
    rcases h.bound_of i hi with hne | he
    · exact hne hb
    · exact herr he hb
  refine .bind ?_
  rw [xilXvcExit, always_read_bind]
  refine .bind ((detachAll_settled s.bound h rfl hnull).mono fun _ t ht => ?_)
  obtain ⟨hsettled, hbound, hkept, hall⟩ := ht
  have hdevres : t.devres = [] := List.eq_nil_iff_forall_not_mem.mpr fun e he => by
    have hmem := hsettled.owned e he
    rw [hbound] at hmem
    cases hmem
  refine (cleanup_balanced hsettled.toTally (by rw [hkept]; exact hcls) hall hdevres).mono fun _ u hu => ?_
  obtain ⟨-, hsound, hzero⟩ := hu
  have hbalanced : Balanced { u with stage := .unloaded } := ⟨hsound, fun _ => hzero⟩
  exact ⟨hbalanced, hbalanced⟩

theorem job_rests {cfg : Config} {s : Driver} {j : Job} (h : Rests cfg s) (hmay : j.May s) (hend : Ends s j) :
    (j.body cfg).Always careful Balanced (fun _ => Rests cfg) s := by
  cases j with
  | load =>
    have hs : s = Driver.start := by simpa only [Rests, show s.stage = .fresh from hmay] using h
    rw [hs]
    exact load_rests
  | bind pdev =>
    have hs : Settled cfg s := by simpa only [Rests, hmay.1] using h
    exact (bindDevice_settled hs).mono fun _ _ ht => ht.rests
  | detach pdev =>
    have hs : Settled cfg s := by simpa only [Rests, hmay.1] using h
    exact (detachDevice_settled hs).mono fun _ _ ht => ht.1.rests
  | unload =>
    have hs : Settled cfg s := by simpa only [Rests, show s.stage = .live from hmay] using h
    exact unload_rests hs hend

/-- **The resources are balanced.** In every run of the module whose kernel calls succeed, but for `class_create`
and `devm_ioremap_resource`, and that ends with a class or none and with no error left in `db_ptrs`: at every
step each resource has only been released while it was held, and after `exit` none is held. -/
theorem resources_balanced (cfg : Config) {c : Driver × Prog Unit}
    (h : ((lifecycle cfg).under Succeeds Ends).Reaches Driver.start c) : Balanced c.1 :=
  (Session.invariant (S := (lifecycle cfg).under Succeeds Ends) (I := Balanced) (J := Rests cfg)
    (fun _ hs => hs.balanced) (fun _ _ hs hmay => job_rests hs hmay.1 hmay.2) (s := Driver.start) rfl h).1

section TwoEntries

/-- Two entries, and the runs whose kernel calls succeed. -/
def twoEntries : Config := .user [⟨some "a", 0x80010000, 0x10000⟩, ⟨some "b", 0x80020000, 0x10000⟩]

def succeeding : Session Driver KernelCall Answer := (lifecycle twoEntries).under Succeeds Ends

/-- The module when `probe` has brought up both entries for a device. -/
def Driver.twoBound : Driver :=
  { (Driver.loaded.store 0 (.valid 3)).store 1 (.valid 5) with
    xvcDevClass := .valid 1
    cdevOwner := true
    nodes := [1, 0]
    bound := [7]
    ledger :=
      [.acquire .region, .acquire (.cls 1), .acquire .cdev, .acquire (.node 0), .acquire (.mapping 3),
        .acquire (.node 1), .acquire (.mapping 5)] }

/-- The module when `remove` has taken them down. -/
def Driver.twoRemoved : Driver :=
  { (Driver.twoBound.clear 0).clear 1 with
    nodes := []
    bound := []
    entries := Driver.twoBound.entries ++ [.unmapped 0, .cleared 0, .unmapped 1, .cleared 1]
    ledger := Driver.twoBound.ledger ++
      [.release (.mapping 3), .release (.node 0), .release (.mapping 5), .release (.node 1)] }

variable {P : Driver × Prog Unit → Prop}

theorem succeeding_loads (h : succeeding.Leads (Driver.loaded, .done ()) P) :
    succeeding.Leads (Driver.start, .done ()) P := by
  refine .step (.start (S := succeeding) Job.load ⟨rfl, trivial⟩) ?_
  refine .step (.run (.call (show Answer allocChrdevRegion from (0 : Int)) ⟨trivial, rfl⟩)) ?_
  refine .step (.run .set) ?_
  refine .step (.run (.call (show Answer platformDriverRegister from (0 : Int)) ⟨trivial, rfl⟩)) ?_
  refine .step (.run .set) ?_
  exact h

theorem succeeding_binds (h : succeeding.Leads (Driver.twoBound, .done ()) P) :
    succeeding.Leads (Driver.loaded, .done ()) P := by
  refine .step (.start (S := succeeding) (Job.bind 7) ⟨⟨rfl, by decide⟩, trivial⟩) ?_
  refine .step (.run (.call (show Answer undef from (0 : Int)) ⟨trivial, trivial⟩)) ?_
  refine .step (.run .get) ?_
  refine .step (.run (.call (.valid 1) ⟨⟨nofun, fun a _ => rfl⟩, trivial⟩)) ?_
  refine .step (.run .set) ?_
  refine .step (.run .set) ?_
  refine .step (.run (.call (show Answer cdevAdd from (0 : Int)) ⟨trivial, rfl⟩)) ?_
  refine .step (.run .get) ?_
  refine .step (.run (.call (.valid 2) ⟨⟨nofun, fun _ => ⟨⟨1, rfl⟩, by decide⟩⟩, fun _ => rfl⟩)) ?_
  refine .step (.run (.call (.valid 3) ⟨⟨rfl, fun a ha => by cases ha; decide⟩, nofun⟩)) ?_
  refine .step (.run .set) ?_
  refine .step (.run .get) ?_
  refine .step (.run (.call (.valid 4) ⟨⟨nofun, fun _ => ⟨⟨1, rfl⟩, by decide⟩⟩, fun _ => rfl⟩)) ?_
  refine .step (.run (.call (.valid 5) ⟨⟨rfl, fun a ha => by cases ha; decide⟩, nofun⟩)) ?_
  refine .step (.run .set) ?_
  refine .step (.run .set) ?_
  exact h

theorem succeeding_detaches (h : succeeding.Leads (Driver.twoRemoved, .done ()) P) :
    succeeding.Leads (Driver.twoBound, .done ()) P := by
  refine .step (.start (S := succeeding) (Job.detach 7) ⟨⟨rfl, by decide⟩, trivial⟩) ?_
  refine .step (.run .get) ?_
  refine .step (.run (.call () ⟨trivial, trivial⟩)) ?_
  refine .step (.run .set) ?_
  refine .step (.run (.call () ⟨trivial, trivial⟩)) ?_
  refine .step (.run .get) ?_
  refine .step (.run (.call () ⟨trivial, trivial⟩)) ?_
  refine .step (.run .set) ?_
  refine .step (.run (.call () ⟨trivial, trivial⟩)) ?_
  refine .step (.run (.call () ⟨trivial, trivial⟩)) ?_
  refine .step (.run .set) ?_
  exact h

/-- The module is loaded, brings up two entries for a device, which is detached again, and is unloaded. -/
theorem resources_balanced_bound :
    ((lifecycle (.user [⟨some "a", 0x80010000, 0x10000⟩, ⟨some "b", 0x80020000, 0x10000⟩])).under Succeeds Ends).Leads
      (Driver.start, .done ()) fun c => c.1.stage = .unloaded ∧ (∀ r, balance c.1.ledger r = 0) ∧
        c.1.ledger =
          [.acquire .region, .acquire (.cls 1), .acquire .cdev, .acquire (.node 0), .acquire (.mapping 3),
            .acquire (.node 1), .acquire (.mapping 5), .release (.mapping 3), .release (.node 0),
            .release (.mapping 5), .release (.node 1), .release (.cls 1), .release .cdev, .release .region] := by
  have hend : ∀ l, (succeeding.Leads (Driver.start, .done ()) fun c => c.1.stage = .unloaded ∧ c.1.ledger = l) →
      succeeding.Leads (Driver.start, .done ()) fun c =>
        c.1.stage = .unloaded ∧ (∀ r, balance c.1.ledger r = 0) ∧ c.1.ledger = l := by
    rintro l ⟨c, hreach, hstage, hledger⟩
    exact ⟨c, hreach, hstage, (resources_balanced twoEntries hreach).2 (.inr hstage), hledger⟩
  refine hend _ (succeeding_loads (succeeding_binds (succeeding_detaches ?_)))
  refine .step (.start (S := succeeding) Job.unload ⟨rfl, rfl, nofun⟩) ?_
  refine .step (.run .get) ?_
  refine .step (.run .get) ?_
  refine .step (.run (.call () ⟨trivial, trivial⟩)) ?_
  refine .step (.run .set) ?_
  refine .step (.run (.call () ⟨trivial, trivial⟩)) ?_
  refine .step (.run (.call () ⟨trivial, trivial⟩)) ?_
  refine .step (.run .set) ?_
  exact .here ⟨rfl, rfl⟩

end TwoEntries

/-- `alloc_chrdev_region` fails, and `xil_xvc_cleanup` gives back the region that it has not got. -/
theorem resources_not_balanced :
    (lifecycle .byRes).Leads (Driver.start, .done ()) fun c => ¬ Balanced c.1 := by
  refine .step (lifecycle_start .load rfl) ?_
  refine .step (.run (.call (-16 : Int) trivial)) ?_
  refine .step (.run .get) ?_
  refine .step (.run (.call () trivial)) ?_
  refine .step (.run .set) ?_
  refine .step (.run (.call () trivial)) ?_
  exact .here fun h => not_sound_release (l := []) (by decide) h.1

end ZynqMP
end Xvc
