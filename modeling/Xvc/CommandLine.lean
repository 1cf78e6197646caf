import Xvc.Dpc.Port
import Xvc.Lib.Strtoul
import Xvc.Server.Url
import Xvc.Versal.XvcMem

/-!
# The command lines

`main` of `xvc_mem.c` and of `xvc_dpc.c` reads the options up to the first argument that is none, and calls
`xvcserver_start` with what they set. The two loops have the same options, but for those with a number.

* `optionLoop`: the loop. `Versal.main`, `Dpc.main`: the two programs.
* `Opt`: what can be said on a command line, and `Numbers.words` how.
* `optionLoop_eq_ok`: what is accepted, and what it sets.
* `main_calls`: the same for the two programs.
-/

namespace Xvc

variable {F : Type}

/-! ## The loop -/

inductive LoggingMode where
  | default
  | verbose
  | quiet
  deriving DecidableEq

/-- The options with a number, in the order in which they are compared. -/
structure Numbers (F : Type) where
  fields : List F
  name : F → CString

/-- The option of this name. -/
def Numbers.find (N : Numbers F) (a : CString) : Option F := N.fields.find? fun f => a = N.name f

/-- The variables of `main`. -/
structure Settings (F : Type) where
  url : CString
  number : F → Nat
  quiet : Bool
  verbose : Bool
  logMode : LoggingMode

def errorInvalidArgument : Int := 1

def optionS : CString := ⟨ascii "-s", by decide⟩
def optionVerbose : CString := ⟨ascii "--verbose", by decide⟩
def optionQuiet : CString := ⟨ascii "--quiet", by decide⟩

/-- `argv[i][0] == '-'`. -/
def CString.IsOption (a : CString) : Prop := a.bytes.head? = some 45

instance : DecidablePred CString.IsOption := fun a => inferInstanceAs (Decidable (a.bytes.head? = some 45))

/-- The loop over the arguments; `--help` and what is unknown are alike but for what is printed. -/
def optionLoop [DecidableEq F] (N : Numbers F) : List CString → Settings F → Except Int (Settings F)
  | [], s => .ok s
  | a :: rest, s =>
    if ¬ a.IsOption then .ok s
    else if a = optionS then
      match rest with
      | [] => .error errorInvalidArgument
      | url :: rest => optionLoop N rest { s with url := url }
    else
      match N.find a with
      | some f =>
        match rest with
        | [] => .error errorInvalidArgument
        | v :: rest => optionLoop N rest { s with number := Function.update s.number f (strtoul v.bytes) }
      | none =>
        if a = optionVerbose then
          if s.quiet then .error errorInvalidArgument
          else optionLoop N rest { s with verbose := true, logMode := .verbose }
        else if a = optionQuiet then
          if s.verbose then .error errorInvalidArgument
          else optionLoop N rest { s with quiet := true, logMode := .quiet }
        else .error errorInvalidArgument

/-! ## The programs -/

/-- The call of `xvcserver_start`, whose code `main` returns. -/
structure StartCall (C : Type) where
  url : CString
  clientData : C
  logMode : LoggingMode
  deriving DecidableEq

def defaultUrl : CString := ⟨ascii "tcp::2542", by decide⟩

/-- Before the first argument. -/
def Settings.start (number : F → Nat) : Settings F := ⟨defaultUrl, number, false, false, .default⟩

namespace Versal

/-- `xvc_mem.hub.addr`. -/
inductive Number where
  | addr
  deriving DecidableEq

def numbers : Numbers Number where
  fields := [.addr]
  name _ := ⟨ascii "--addr", by decide⟩

/-- `main` of `xvc_mem.c`, from the second argument on; the hub is given by its address and its size. -/
def main (args : List CString) : Except Int (StartCall (Nat × Nat)) :=
  (optionLoop numbers args (.start fun _ => defaultHub.addr)).map fun s =>
    ⟨s.url, (s.number .addr, defaultHub.size), s.logMode⟩

end Versal

namespace Dpc

open Port

/-- `xvc_dpc.dma` and `xvc_dpc.buf`. -/
inductive Number where
  | dmaAddr
  | dmaSize
  | bufAddr
  | bufSize
  deriving DecidableEq

def numbers : Numbers Number where
  fields := [.dmaAddr, .dmaSize, .bufAddr, .bufSize]
  name
    | .dmaAddr => ⟨ascii "--dma_addr", by decide⟩
    | .dmaSize => ⟨ascii "--dma_size", by decide⟩
    | .bufAddr => ⟨ascii "--buf_addr", by decide⟩
    | .bufSize => ⟨ascii "--buf_size", by decide⟩

/-- Only the sizes are set before the loop; the addresses are what the stack holds. -/
def unset (dmaAddr bufAddr : Nat) : Number → Nat
  | .dmaAddr => dmaAddr
  | .dmaSize => 0
  | .bufAddr => bufAddr
  | .bufSize => 0

/-- `main` of `xvc_dpc.c`, from the second argument on. -/
def main (dmaAddr bufAddr : Nat) (args : List CString) : Except Int (StartCall (Region × Region)) :=
  (optionLoop numbers args (.start (unset dmaAddr bufAddr))).map fun s =>
    ⟨s.url, (⟨s.number .dmaAddr, s.number .dmaSize⟩, ⟨s.number .bufAddr, s.number .bufSize⟩), s.logMode⟩

end Dpc

/-! ## What a command line says -/

/-- One option, with its argument. -/
inductive Opt (F : Type) where
  | url (u : CString)
  | number (f : F) (v : CString)
  | verbose
  | quiet
  deriving DecidableEq

/-- The arguments that say it. -/
def Numbers.words (N : Numbers F) : Opt F → List CString
  | .url u => [optionS, u]
  | .number f v => [N.name f, v]
  | .verbose => [optionVerbose]
  | .quiet => [optionQuiet]

/-- What comes after the options. -/
def Stops (rest : List CString) : Prop := ∀ a ∈ rest.head?, ¬ a.IsOption

/-- The names of a program tell its options apart. -/
structure Numbers.Distinct (N : Numbers F) : Prop where
  listed : ∀ f, f ∈ N.fields
  injective : Function.Injective N.name
  isOption : ∀ f, (N.name f).IsOption
  other : ∀ f, N.name f ≠ optionS ∧ N.name f ≠ optionVerbose ∧ N.name f ≠ optionQuiet

/-- The last value that `g` finds in the options, or `d`. -/
def lastOf {β : Type} (g : Opt F → Option β) (opts : List (Opt F)) (d : β) : β :=
  (opts.filterMap g).getLast?.getD d

def Opt.url? : Opt F → Option CString
  | .url u => some u
  | _ => none

def Opt.number? [DecidableEq F] (f : F) : Opt F → Option Nat
  | .number f' v => if f' = f then some (strtoul v.bytes) else none
  | _ => none

/-- The mode of the two switches. -/
def modeOf (verbose quiet : Bool) : LoggingMode := if quiet then .quiet else if verbose then .verbose else .default

/-- The variables after the options. -/
def Settings.after [DecidableEq F] (s : Settings F) (opts : List (Opt F)) : Settings F where
  url := lastOf Opt.url? opts s.url
  number f := lastOf (Opt.number? f) opts (s.number f)
  quiet := s.quiet || decide (.quiet ∈ opts)
  verbose := s.verbose || decide (.verbose ∈ opts)
  logMode := modeOf (s.verbose || decide (.verbose ∈ opts)) (s.quiet || decide (.quiet ∈ opts))

/-- Not both switches, and the mode is theirs. -/
structure Settings.Consistent (s : Settings F) : Prop where
  single : ¬ (s.verbose ∧ s.quiet)
  mode : s.logMode = modeOf s.verbose s.quiet

/-! ## One option -/

section Option

variable {N : Numbers F} {s t : Settings F} {o : Opt F} {opts : List (Opt F)} {rest : List CString}

theorem consistent_start (number : F → Nat) : (Settings.start number).Consistent := ⟨by simp [Settings.start], rfl⟩

theorem Numbers.Distinct.find_name (hN : N.Distinct) (f : F) : N.find (N.name f) = some f := by
  unfold Numbers.find
  cases h : N.fields.find? fun g => N.name f = N.name g with
  | none => simpa using List.find?_eq_none.mp h f (hN.listed f)
  | some g =>
    have hname : N.name f = N.name g := by simpa using List.find?_some h
    rw [hN.injective hname]

theorem Numbers.name_of_find {a : CString} {f : F} (h : N.find a = some f) : a = N.name f := by
  simpa using List.find?_some h

theorem Numbers.find_eq_none {a : CString} (h : ∀ f, N.name f ≠ a) : N.find a = none :=
  List.find?_eq_none.mpr fun f _ => by simpa using (h f).symm

theorem lastOf_cons {β : Type} (g : Opt F → Option β) (o : Opt F) (opts : List (Opt F)) (d : β) :
    lastOf g (o :: opts) d = lastOf g opts ((g o).getD d) := by
  unfold lastOf
  cases h : g o with
  | none => rw [List.filterMap_cons_none h]; rfl
  | some b => rw [List.filterMap_cons_some h, List.getLast?_cons]; rfl

/-- The option contradicts the switch before it. -/
def Settings.Refuses (s : Settings F) : Opt F → Prop
  | .verbose => s.quiet
  | .quiet => s.verbose
  | _ => False

instance (s : Settings F) (o : Opt F) : Decidable (s.Refuses o) :=
  match o with
  | .verbose => inferInstanceAs (Decidable (s.quiet = true))
  | .quiet => inferInstanceAs (Decidable (s.verbose = true))
  | .url _ | .number _ _ => .isFalse id

variable [DecidableEq F]

theorem after_url (hs : s.Consistent) (u : CString) : s.after [.url u] = { s with url := u } := by
  simp [Settings.after, lastOf, Opt.url?, Opt.number?, ← hs.mode]

theorem after_number (hs : s.Consistent) (f : F) (v : CString) :
    s.after [.number f v] = { s with number := Function.update s.number f (strtoul v.bytes) } := by
  have hnumber : (fun g => lastOf (Opt.number? g) [.number f v] (s.number g)) =
      Function.update s.number f (strtoul v.bytes) := by
    funext g
    rw [lastOf_cons, Opt.number?]
    split
    · next heq => rw [← heq, Function.update_self]; rfl
    · next hne => rw [Function.update_of_ne (Ne.symm hne)]; rfl
  rw [Settings.after, hnumber]
  simp [lastOf, Opt.url?, ← hs.mode]

theorem after_verbose (h : s.quiet = false) : s.after [.verbose] = { s with verbose := true, logMode := .verbose } := by
  simp [Settings.after, lastOf, Opt.url?, Opt.number?, modeOf, h]

theorem after_quiet (h : s.verbose = false) : s.after [.quiet] = { s with quiet := true, logMode := .quiet } := by
  simp [Settings.after, lastOf, Opt.url?, Opt.number?, modeOf, h]

theorem optionLoop_switch {a : CString} (ha : a.IsOption) (hS : a ≠ optionS) (hfind : N.find a = none) :
    optionLoop N (a :: rest) s =
      if a = optionVerbose then
        if s.quiet then .error errorInvalidArgument
        else optionLoop N rest { s with verbose := true, logMode := .verbose }
      else if a = optionQuiet then
        if s.verbose then .error errorInvalidArgument
        else optionLoop N rest { s with quiet := true, logMode := .quiet }
      else .error errorInvalidArgument := by
  rw [optionLoop.eq_def]
  simp only [ha, hS, hfind, not_true, if_false]

/-- One option is read, or refused. -/
theorem optionLoop_words (hN : N.Distinct) (hs : s.Consistent) (o : Opt F) (rest : List CString) :
    optionLoop N (N.words o ++ rest) s =
      if s.Refuses o then .error errorInvalidArgument else optionLoop N rest (s.after [o]) := by
  cases o with
  | url u =>
    rw [after_url hs, if_neg (show ¬ s.Refuses (.url u) from id)]
    show optionLoop N (optionS :: u :: rest) s = _
    rw [optionLoop, if_neg (by decide), if_pos rfl]
  | number f v =>
    rw [after_number hs, if_neg (show ¬ s.Refuses (.number f v) from id)]
    show optionLoop N (N.name f :: v :: rest) s = _
    rw [optionLoop, if_neg (not_not_intro (hN.isOption f)), if_neg (hN.other f).1]
    simp only [hN.find_name]
  | verbose =>
    have hfind : N.find optionVerbose = none := Numbers.find_eq_none fun f => (hN.other f).2.1
    show optionLoop N (optionVerbose :: rest) s = if s.quiet then _ else _
    rw [optionLoop_switch (by decide) (by decide) hfind, if_pos rfl]
    split
    · rfl
    · next h => rw [after_verbose (Bool.eq_false_iff.mpr h)]
  | quiet =>
    have hfind : N.find optionQuiet = none := Numbers.find_eq_none fun f => (hN.other f).2.2
    show optionLoop N (optionQuiet :: rest) s = if s.verbose then _ else _
    rw [optionLoop_switch (by decide) (by decide) hfind, if_neg (by decide), if_pos rfl]
    split
    · rfl
    · next h => rw [after_quiet (Bool.eq_false_iff.mpr h)]

/-- Where the options end, the loop does. -/
theorem optionLoop_of_stops (h : Stops rest) : optionLoop N rest s = .ok s := by
  cases rest with
  | nil => rfl
  | cons a rest =>
    rw [optionLoop.eq_def]
    exact if_pos (h a rfl)

/-- What is neither the end nor an option is refused. -/
theorem option_cases (N : Numbers F) (args : List CString) :
    Stops args ∨ (∃ o rest, args = N.words o ++ rest) ∨
      ∀ s, optionLoop N args s = .error errorInvalidArgument := by
  cases args with
  | nil => exact .inl nofun
  | cons a rest =>
    by_cases ha : a.IsOption
    · right
      by_cases hS : a = optionS
      · cases rest with
        | nil => exact .inr fun s => by rw [optionLoop, if_neg (not_not_intro ha), if_pos hS]
        | cons u rest => exact .inl ⟨.url u, rest, by rw [hS]; rfl⟩
      · cases hfind : N.find a with
        | some f =>
          cases rest with
          | nil => exact .inr fun s => by rw [optionLoop, if_neg (not_not_intro ha), if_neg hS]; simp only [hfind]
          | cons v rest => exact .inl ⟨.number f v, rest, by rw [Numbers.name_of_find hfind]; rfl⟩
        | none =>
          by_cases hv : a = optionVerbose
          · exact .inl ⟨.verbose, rest, by rw [hv]; rfl⟩
          by_cases hq : a = optionQuiet
          · exact .inl ⟨.quiet, rest, by rw [hq]; rfl⟩
          exact .inr fun s => by rw [optionLoop_switch ha hS hfind, if_neg hv, if_neg hq]
    · refine .inl fun b hb => ?_
      rwa [← Option.some.inj hb]

theorem after_nil (hs : s.Consistent) : s.after [] = s := by
  simp [Settings.after, lastOf, ← hs.mode]

theorem after_cons (s : Settings F) (o : Opt F) (opts : List (Opt F)) :
    (s.after [o]).after opts = s.after (o :: opts) := by
  have hlast : ∀ {β : Type} (g : Opt F → Option β) (d : β), lastOf g opts (lastOf g [o] d) = lastOf g (o :: opts) d :=
    fun g d => (congrArg (lastOf g opts) (lastOf_cons g o [] d)).trans (lastOf_cons g o opts d).symm
  simp only [Settings.after, hlast, List.mem_cons, List.not_mem_nil, or_false, Bool.decide_or, Bool.or_assoc]

/-- Both switches have been given. -/
def Settings.Contradicts (s : Settings F) (opts : List (Opt F)) : Prop :=
  (s.after opts).verbose ∧ (s.after opts).quiet

theorem consistent_after (h : ¬ s.Contradicts opts) : (s.after opts).Consistent := ⟨h, rfl⟩

/-- Read one option at a time, they contradict each other when they do as a whole. -/
theorem contradicts_singleton (hs : s.Consistent) : s.Contradicts [o] ↔ s.Refuses o := by
  have hsingle := hs.single
  cases o <;> simp [Settings.Contradicts, Settings.Refuses, Settings.after] at hsingle ⊢ <;> tauto

theorem Settings.Contradicts.cons (h : s.Contradicts [o]) : s.Contradicts (o :: opts) := by
  simp only [Settings.Contradicts, Settings.after, List.mem_cons, List.not_mem_nil, or_false, Bool.or_eq_true,
    decide_eq_true_eq] at h ⊢
  tauto

/-- **All the options.** -/
theorem optionLoop_options (hN : N.Distinct) (hs : s.Consistent) (opts : List (Opt F)) (rest : List CString) :
    (s.Contradicts opts ∧ optionLoop N (opts.flatMap N.words ++ rest) s = .error errorInvalidArgument) ∨
      ¬ s.Contradicts opts ∧ optionLoop N (opts.flatMap N.words ++ rest) s = optionLoop N rest (s.after opts) := by
  induction opts generalizing s with
  | nil =>
    refine .inr ⟨?_, by rw [after_nil hs]; rfl⟩
    rw [Settings.Contradicts, after_nil hs]
    exact hs.single
  | cons o opts ih =>
    rw [List.flatMap_cons, List.append_assoc, optionLoop_words hN hs]
    split
    · next h => exact .inl ⟨((contradicts_singleton hs).mpr h).cons, rfl⟩
    · next h =>
      have hrest := ih (consistent_after (mt (contradicts_singleton hs).mp h))
      rwa [Settings.Contradicts, after_cons] at hrest

end Option

/-! ## The whole line -/

section Line

variable [DecidableEq F] {N : Numbers F} {s t : Settings F} {args : List CString} {e : Int}

/-- The line says these options. -/
def Numbers.Says (N : Numbers F) (args : List CString) (opts : List (Opt F)) : Prop :=
  ∃ rest, args = opts.flatMap N.words ++ rest ∧ Stops rest

/-- Every line says options, or is refused behind some. -/
theorem line_cases (N : Numbers F) (args : List CString) :
    (∃ opts, N.Says args opts) ∨
      ∃ (opts : List (Opt F)) (rest : List CString), args = opts.flatMap N.words ++ rest ∧
        ∀ s, optionLoop N rest s = .error errorInvalidArgument := by
  induction hn : args.length using Nat.strong_induction_on generalizing args with
  | h n ih =>
    rcases option_cases N args with h | ⟨o, rest, rfl⟩ | h
    · exact .inl ⟨[], args, rfl, h⟩
    · have hwords : 0 < (N.words o).length := by cases o <;> exact Nat.succ_pos _
      rw [List.length_append] at hn
      rcases ih rest.length (by omega) rest rfl with ⟨opts, last, rfl, h⟩ | ⟨opts, last, rfl, h⟩
      · exact .inl ⟨o :: opts, last, by rw [List.flatMap_cons, List.append_assoc], h⟩
      · exact .inr ⟨o :: opts, last, by rw [List.flatMap_cons, List.append_assoc], h⟩
    · exact .inr ⟨[], args, rfl, h⟩

/-- A line is accepted, or refused with the one code. -/
theorem optionLoop_cases (hN : N.Distinct) (hs : s.Consistent) (args : List CString) :
    (∃ opts, N.Says args opts ∧ ¬ s.Contradicts opts ∧ optionLoop N args s = .ok (s.after opts)) ∨
      optionLoop N args s = .error errorInvalidArgument := by
  rcases line_cases N args with ⟨opts, rest, rfl, hstops⟩ | ⟨opts, rest, rfl, herr⟩
  · rcases optionLoop_options hN hs opts rest with ⟨-, hloop⟩ | ⟨hnot, hloop⟩
    · exact .inr hloop
    · rw [optionLoop_of_stops hstops] at hloop
      exact .inl ⟨opts, ⟨rest, rfl, hstops⟩, hnot, hloop⟩
  · rcases optionLoop_options hN hs opts rest with ⟨-, hloop⟩ | ⟨-, hloop⟩
    · exact .inr hloop
    · exact .inr (hloop.trans (herr _))

/-- **What is accepted**, and what it sets. -/
theorem optionLoop_eq_ok (hN : N.Distinct) (hs : s.Consistent) :
    optionLoop N args s = .ok t ↔ ∃ opts, N.Says args opts ∧ ¬ s.Contradicts opts ∧ t = s.after opts := by
  constructor
  · intro h
    rcases optionLoop_cases hN hs args with ⟨opts, hsays, hnot, hloop⟩ | hloop
    · exact ⟨opts, hsays, hnot, Except.ok.inj (h.symm.trans hloop)⟩
    · exact nomatch h.symm.trans hloop
  · rintro ⟨opts, ⟨rest, rfl, hstops⟩, hnot, rfl⟩
    rcases optionLoop_options hN hs opts rest with ⟨hyes, -⟩ | ⟨-, hloop⟩
    · exact absurd hyes hnot
    · rw [hloop, optionLoop_of_stops hstops]

theorem optionLoop_eq_error (hN : N.Distinct) (hs : s.Consistent) (h : optionLoop N args s = .error e) :
    e = errorInvalidArgument := by
  rcases optionLoop_cases hN hs args with ⟨_, -, -, hloop⟩ | hloop
  · exact nomatch h.symm.trans hloop
  · exact Except.error.inj (h.symm.trans hloop)

/-- The same with what a program makes of it. -/
theorem call_spec {C : Type} (hN : N.Distinct) (number : F → Nat) (call : Settings F → StartCall C)
    (args : List CString) :
    let r := (optionLoop N args (.start number)).map call
    (∀ c, r = .ok c ↔ ∃ opts, N.Says args opts ∧ ¬ (.verbose ∈ opts ∧ .quiet ∈ opts) ∧
      c = call ((Settings.start number).after opts)) ∧ ∀ e, r = .error e → e = errorInvalidArgument := by
  have hs := consistent_start number
  have hboth : ∀ opts, (Settings.start number).Contradicts opts ↔ .verbose ∈ opts ∧ .quiet ∈ opts := fun opts => by
    simp [Settings.Contradicts, Settings.after, Settings.start]
  cases hloop : optionLoop N args (.start number) with
  | error e =>
    refine ⟨fun c => ⟨nofun, fun ⟨opts, hsays, hnot, _⟩ => ?_⟩, fun e' he => ?_⟩
    · exact nomatch hloop.symm.trans ((optionLoop_eq_ok hN hs).mpr ⟨opts, hsays, mt (hboth opts).mp hnot, rfl⟩)
    · exact Except.error.inj he ▸ optionLoop_eq_error hN hs hloop
  | ok t =>
    refine ⟨fun c => ⟨fun hc => ?_, fun ⟨opts, hsays, hnot, hc⟩ => ?_⟩, nofun⟩
    · obtain ⟨opts, hsays, hnot, rfl⟩ := (optionLoop_eq_ok hN hs).mp hloop
      exact ⟨opts, hsays, mt (hboth opts).mpr hnot, (Except.ok.inj hc).symm⟩
    · have hok := (optionLoop_eq_ok hN hs).mpr ⟨opts, hsays, mt (hboth opts).mp hnot, rfl⟩
      rw [hc, Except.ok.inj (hloop.symm.trans hok)]
      rfl

end Line

/-! ## The two programs -/

theorem Versal.numbers_distinct : Versal.numbers.Distinct where
  listed f := by cases f; exact List.mem_cons_self
  injective f f' _ := by cases f; cases f'; rfl
  isOption f := by cases f; decide
  other f := by cases f; decide

theorem Dpc.numbers_distinct : Dpc.numbers.Distinct where
  listed f := by cases f <;> decide
  injective f f' h := by cases f <;> cases f' <;> first | rfl | exact absurd h (by decide)
  isOption f := by cases f <;> decide
  other f := by cases f <;> decide

/-- **`main`.** A program starts the server exactly for the lines that say options, in any order and any number of
times, and not both `--verbose` and `--quiet`; each thing is then what was said of it last, or what it was before. It
returns 1 for every other line. The numbers may be said as they are printed. -/
theorem main_calls (dmaAddr bufAddr : Nat) (args : List CString) :
    ((∀ c, Versal.main args = .ok c ↔ ∃ opts, Versal.numbers.Says args opts ∧ ¬ (.verbose ∈ opts ∧ .quiet ∈ opts) ∧
        c = ⟨lastOf Opt.url? opts defaultUrl,
          (lastOf (Opt.number? .addr) opts Versal.defaultHub.addr, Versal.defaultHub.size),
          modeOf (.verbose ∈ opts) (.quiet ∈ opts)⟩) ∧
      ∀ e, Versal.main args = .error e → e = errorInvalidArgument) ∧
    ((∀ c, Dpc.main dmaAddr bufAddr args = .ok c ↔
        ∃ opts, Dpc.numbers.Says args opts ∧ ¬ (.verbose ∈ opts ∧ .quiet ∈ opts) ∧
        c = ⟨lastOf Opt.url? opts defaultUrl,
          (⟨lastOf (Opt.number? .dmaAddr) opts dmaAddr, lastOf (Opt.number? .dmaSize) opts 0⟩,
            ⟨lastOf (Opt.number? .bufAddr) opts bufAddr, lastOf (Opt.number? .bufSize) opts 0⟩),
          modeOf (.verbose ∈ opts) (.quiet ∈ opts)⟩) ∧
      ∀ e, Dpc.main dmaAddr bufAddr args = .error e → e = errorInvalidArgument) ∧
    ∀ n < 2 ^ 64, strtoul (ascii "0x" ++ Versal.hex08 n) = n ∧ strtoul (decimal n) = n := by
  refine ⟨?_, ?_, fun n hn => ⟨?_, Strtoul.strtoul_decimal hn⟩⟩
  · exact call_spec Versal.numbers_distinct _ _ args
  · exact call_spec Dpc.numbers_distinct _ _ args
  · exact Strtoul.strtoul_hex (by decide) hn _

/-- Two addresses for the hub, of which the second is taken, and one switch. -/
theorem main_calls_secondAddr :
    Versal.main [⟨ascii "--addr", by decide⟩, ⟨ascii "0x80000000", by decide⟩, ⟨ascii "--quiet", by decide⟩,
      ⟨ascii "--addr", by decide⟩, ⟨ascii "0xA4400000", by decide⟩] =
        .ok ⟨defaultUrl, (0xA4400000, 0x200000), .quiet⟩ :=
  ((main_calls 0 0 _).1.1 _).mpr
    ⟨[.number .addr ⟨ascii "0x80000000", by decide⟩, .quiet, .number .addr ⟨ascii "0xA4400000", by decide⟩],
      ⟨[], rfl, nofun⟩, by decide, by decide⟩

end Xvc
