import Xvc.Server.Configure

/-!
# The address of a server

`xvcserver_start` takes the address to listen at as text, `tcp:host:port`, and prints one for its clients. It takes a
copy of the text apart in place.

* `parseUrlAt`: that code, on the memory. `parseUrl`: the same on the text alone.
* `urlOf_eq`: the first does what the second says.
* `Denotes`, `Malformed`: the grammar. `parseUrl_eq_ok` and `parseUrl_eq_error` say that it is exactly what is accepted.
* `url_fields`: so the address that is printed is accepted again, for the same fields.
-/

namespace Xvc

open ByteMem

/-! ## The code -/

/-- A text in memory. -/
structure CString where
  bytes : List UInt8
  noNul : 0 ∉ bytes
  deriving DecidableEq

/-- `strdup`: a copy at 0, with its NUL. -/
def CString.copy (t : CString) : ByteMem := write (fun _ => 0) 0 t.bytes

def errorInvalidUrlTransportType : Int := 3
def errorInvalidUrlField : Int := 4

/-- Where the fields are once the text has been taken apart; the transport may be the literal `tcp`. -/
structure UrlAt where
  mem : ByteMem
  transport : Option Nat
  host : Nat
  port : Nat

/-- The end of the parser, with the port at `p`. -/
def parsePortAt (transport : Option Nat) (host : Nat) (mem : ByteMem) (p pend : Nat) : Except Int UrlAt :=
  let f := getField mem p pend 58
  if f.1 f.2 ≠ 0 then .error errorInvalidUrlField else .ok ⟨f.1, transport, host, p⟩

/-- The test of the transport at `t`, which stops at the first letter that is another one. -/
def isTcpAt (mem : ByteMem) (t : Nat) : Bool :=
  (mem t == 84 || mem t == 116) && (mem (t + 1) == 67 || mem (t + 1) == 99) &&
    (mem (t + 2) == 80 || mem (t + 2) == 112) && mem (t + 3) == 0

/-- The parser of `xvcserver_start`, for the text at `url` whose NUL is at `pend`. -/
def parseUrlAt (mem : ByteMem) (url pend : Nat) : Except Int UrlAt :=
  let f := getField mem url pend 58
  if isTcpAt f.1 url then
    let g := getField f.1 f.2 pend 58
    parsePortAt (some url) f.2 g.1 g.2 pend
  -- `strchr(p, ':') == NULL`.
  else if f.1 (scanTo f.1 58 (pend - f.2) f.2) ≠ 58 then parsePortAt none url f.1 f.2 pend
  else .error errorInvalidUrlTransportType

/-- The fields of an address. -/
@[ext]
structure Url where
  transport : List UInt8
  host : List UInt8
  port : List UInt8
  deriving DecidableEq

/-- The fields as C strings. -/
def UrlAt.read (u : UrlAt) (pend : Nat) : Url where
  transport := match u.transport with
    | some t => cstr u.mem (pend - t) t
    | none => ascii "tcp"
  host := cstr u.mem (pend - u.host) u.host
  port := cstr u.mem (pend - u.port) u.port

/-- What the parser makes of a copy of the text. -/
def urlOf (t : CString) : Except Int Url :=
  (parseUrlAt t.copy 0 t.bytes.length).map fun u => u.read t.bytes.length

/-! ## On the text -/

/-- The field up to `c`, and what follows `c`. -/
def fieldOf (c : UInt8) : List UInt8 → List UInt8 × List UInt8
  | [] => ([], [])
  | b :: s =>
    if b = c then ([], s)
    else
      let r := fieldOf c s
      (b :: r.1, r.2)

/-- `tcp`, in letters of either case. -/
def isTcp : List UInt8 → Bool
  | [t, c, p] => (t == 84 || t == 116) && (c == 67 || c == 99) && (p == 80 || p == 112)
  | _ => false

/-- The end of the parser: the port, behind which nothing may be left. -/
def parsePort (transport host p : List UInt8) : Except Int Url :=
  let port := fieldOf 58 p
  if port.2 ≠ [] then .error errorInvalidUrlField else .ok ⟨transport, host, port.1⟩

/-- The fields of the text `url`. -/
def parseUrl (url : List UInt8) : Except Int Url :=
  let transport := fieldOf 58 url
  if isTcp transport.1 then
    let host := fieldOf 58 transport.2
    parsePort transport.1 host.1 host.2
  else if 58 ∉ transport.2 then parsePort (ascii "tcp") transport.1 transport.2
  else .error errorInvalidUrlTransportType

/-! ## Fields -/

section Fields

variable {c : UInt8} {s f r : List UInt8}

theorem fieldOf_append (h : c ∉ f) : fieldOf c (f ++ c :: r) = (f, r) := by
  induction f with
  | nil => exact if_pos rfl
  | cons b f ih =>
    obtain ⟨hb, hf⟩ := not_or.mp (mt List.mem_cons.mpr h)
    rw [List.cons_append, fieldOf, if_neg (Ne.symm hb), ih hf]

theorem fieldOf_self (h : c ∉ f) : fieldOf c f = (f, []) := by
  induction f with
  | nil => rfl
  | cons b f ih =>
    obtain ⟨hb, hf⟩ := not_or.mp (mt List.mem_cons.mpr h)
    rw [fieldOf, if_neg (Ne.symm hb), ih hf]

/-- Every text is a field, or a field and what follows it. -/
theorem field_cases (c : UInt8) (s : List UInt8) : ∃ f, c ∉ f ∧ (s = f ∨ ∃ r, s = f ++ c :: r) := by
  induction s with
  | nil => exact ⟨[], List.not_mem_nil, .inl rfl⟩
  | cons b s ih =>
    by_cases hb : b = c
    · exact ⟨[], List.not_mem_nil, .inr ⟨s, by rw [hb]; rfl⟩⟩
    · obtain ⟨f, hf, hs⟩ := ih
      have hbf : c ∉ b :: f := fun h => (List.mem_cons.mp h).elim (fun h => hb h.symm) hf
      rcases hs with rfl | ⟨r, rfl⟩
      · exact ⟨b :: s, hbf, .inl rfl⟩
      · exact ⟨b :: f, hbf, .inr ⟨r, rfl⟩⟩

theorem not_mem_of_isTcp (h : isTcp s) : 58 ∉ s := by
  match s, h with
  | [t, c, p], h =>
    simp only [isTcp, Bool.and_eq_true, Bool.or_eq_true, beq_iff_eq] at h
    obtain ⟨⟨rfl | rfl, rfl | rfl⟩, rfl | rfl⟩ := h <;> decide

end Fields

/-! ## The code does what the text says -/

/-- The text `l` is at `s`, with its NUL, and ends by `pend`. -/
structure TextAt (mem : ByteMem) (s pend : Nat) (l : List UInt8) : Prop where
  spells : Spells mem s l
  nul : mem (s + l.length) = 0
  ends : s + l.length ≤ pend

/-- The text `l` at `s` ends before the text `k` at `p`, or they share a last NUL. -/
def Precedes (s : Nat) (l : List UInt8) (p : Nat) (k : List UInt8) : Prop :=
  s + l.length < p ∨ s + l.length = p ∧ k = []

section TextAt

variable {mem m : ByteMem} {s p q pend host : Nat} {l k : List UInt8} {t : Option Nat}

theorem TextAt.congr (h : TextAt mem s pend l) (hm : ∀ a, s ≤ a → a ≤ s + l.length → m a = mem a) :
    TextAt m s pend l :=
  ⟨h.spells.congr fun a ha hb => hm a ha (by omega), (hm _ (by omega) (Nat.le_refl _)).trans h.nul, h.ends⟩

theorem TextAt.ne_zero_iff (h : TextAt mem s pend l) : mem s ≠ 0 ↔ l ≠ [] := by
  cases l with
  | nil => simpa using h.nul
  | cons b l => simp [h.spells.head.1, h.spells.noNul b List.mem_cons_self]

theorem TextAt.cstr_eq (h : TextAt mem s pend l) : cstr mem (pend - s) s = l :=
  cstr_of h.spells h.nul (by have := h.ends; omega)

theorem TextAt.tail {b : UInt8} (h : TextAt mem s pend (b :: l)) : mem s = b ∧ TextAt mem (s + 1) pend l := by
  obtain ⟨hb, hl⟩ := h.spells.head
  have hnul := h.nul
  have hends := h.ends
  rw [List.length_cons] at hnul hends
  exact ⟨hb, hl, by rw [← hnul]; congr 1; omega, by omega⟩

theorem TextAt.isTcpAt_eq (h : TextAt mem s pend l) : isTcpAt mem s = isTcp l := by
  have hend : ∀ {i}, TextAt mem i pend [] → mem i = 0 := fun hi => hi.nul
  unfold isTcpAt
  match l, h with
  | [], h => rw [hend h]; rfl
  | [a], h =>
    obtain ⟨ha, h⟩ := h.tail
    rw [hend h]
    simp [isTcp]
  | [a, b], h =>
    obtain ⟨ha, h⟩ := h.tail
    obtain ⟨hb, h⟩ := h.tail
    rw [show s + 2 = s + 1 + 1 from rfl, hend h]
    simp [isTcp]
  | [a, b, c], h =>
    obtain ⟨ha, h⟩ := h.tail
    obtain ⟨hb, h⟩ := h.tail
    obtain ⟨hc, h⟩ := h.tail
    rw [ha, hb, show s + 2 = s + 1 + 1 from rfl, hc, show s + 3 = s + 1 + 1 + 1 from rfl, hend h]
    simp [isTcp]
  | a :: b :: c :: d :: l, h =>
    obtain ⟨-, h⟩ := h.tail
    obtain ⟨-, h⟩ := h.tail
    obtain ⟨-, h⟩ := h.tail
    obtain ⟨hd, -⟩ := h.tail
    have hne := h.spells.noNul d List.mem_cons_self
    rw [show s + 3 = s + 1 + 1 + 1 from rfl, hd]
    simp [isTcp, hne]

/-- **`get_field`** leaves the field and what follows it as texts of their own. It writes inside its text only. -/
theorem TextAt.getField (h : TextAt mem s pend l) :
    let f := Xvc.getField mem s pend 58
    let r := fieldOf 58 l
    TextAt f.1 s pend r.1 ∧ TextAt f.1 f.2 pend r.2 ∧ Precedes s r.1 f.2 r.2 ∧
      ∀ a, a < s ∨ s + l.length ≤ a → f.1 a = mem a := by
  intro f r
  have hends := h.ends
  obtain ⟨g, hg, rfl | ⟨k, rfl⟩⟩ := field_cases 58 l
  · -- No colon: the text's own NUL ends the field.
    have hscan := scanTo_of h.spells hg (.inl h.nul) (k := pend - s) (by omega)
    have hf : f = (mem, s + l.length) := by simp [f, Xvc.getField, hscan, h.nul]
    have hr : r = (l, []) := fieldOf_self hg
    rw [hf, hr]
    have hnone : TextAt mem (s + l.length) pend [] := ⟨⟨rfl, by simp⟩, h.nul, hends⟩
    exact ⟨h, hnone, .inr ⟨rfl, rfl⟩, fun _ _ => rfl⟩
  · -- A NUL is put over the colon.
    obtain ⟨hgs, htail⟩ := h.spells.append
    obtain ⟨hcolon, hk⟩ := htail.head
    simp only [List.length_append, List.length_cons] at hends
    have hscan := scanTo_of hgs hg (.inr hcolon) (k := pend - s) (by omega)
    have hf : f = (write mem (s + g.length) [0], s + g.length + 1) := by simp [f, Xvc.getField, hscan, hcolon]
    have hr : r = (g, k) := fieldOf_append hg
    have hw : ∀ a, a ≠ s + g.length → write mem (s + g.length) [0] a = mem a :=
      fun a ha => write_of_disjoint mem [0] (by simp only [List.length_singleton]; omega)
    have hz : write mem (s + g.length) [0] (s + g.length) = 0 := by simp [write]
    have hnul : mem (s + g.length + 1 + k.length) = 0 := by
      rw [← h.nul]
      simp only [List.length_append, List.length_cons]
      congr 1
      omega
    rw [hf, hr]
    refine ⟨⟨hgs.congr fun a _ ha => hw a (by omega), hz, by dsimp only; omega⟩, ?_, .inl (Nat.lt_succ_self _),
      fun a ha => ?_⟩
    · exact ⟨hk.congr fun a ha _ => hw a (by omega), (hw _ (by omega)).trans hnul, by dsimp only; omega⟩
    · simp only [List.length_append, List.length_cons] at ha
      exact hw a (by omega)

/-- A later `get_field` leaves the fields before it alone. -/
theorem TextAt.keeps (h : TextAt mem s pend l) (hp : TextAt mem p pend k) (hlt : Precedes s l p k) :
    TextAt (Xvc.getField mem p pend 58).1 s pend l := by
  refine h.congr fun a _ ha => hp.getField.2.2.2 a ?_
  rcases hlt with hlt | ⟨heq, rfl⟩
  · exact .inl (by omega)
  · by_cases hap : a < p
    · exact .inl hap
    · exact .inr (by rw [List.length_nil]; omega)

theorem TextAt.strchr (h : TextAt mem s pend l) : mem (scanTo mem 58 (pend - s) s) ≠ 58 ↔ 58 ∉ l := by
  have hends := h.ends
  obtain ⟨g, hg, rfl | ⟨k, rfl⟩⟩ := field_cases 58 l
  · rw [scanTo_of h.spells hg (.inl h.nul) (by omega), h.nul]
    exact ⟨fun _ => hg, fun _ => by decide⟩
  · obtain ⟨hgs, htail⟩ := h.spells.append
    simp only [List.length_append, List.length_cons] at hends
    rw [scanTo_of hgs hg (.inr htail.head.1) (by omega), htail.head.1]
    simp

theorem Precedes.trans (h : Precedes s l p k) (hq : Precedes p (fieldOf 58 k).1 q (fieldOf 58 k).2) :
    Precedes s l q (fieldOf 58 k).2 := by
  rcases h with hlt | ⟨heq, rfl⟩
  · rcases hq with hq | ⟨hq, -⟩
    · exact .inl (by omega)
    · exact .inl (by omega)
  · rcases hq with hq | ⟨hq, hnil⟩
    · exact .inl (by omega)
    · exact .inr ⟨by rw [← hq, heq]; rfl, hnil⟩

/-- The transport is a text of its own, or `tcp`. -/
def TransportAt (mem : ByteMem) (pend : Nat) (t : Option Nat) (l : List UInt8) (p : Nat) (k : List UInt8) : Prop :=
  match t with
  | some s => TextAt mem s pend l ∧ Precedes s l p k
  | none => l = ascii "tcp"

theorem parsePortAt_eq {transport hostText : List UInt8} (ht : TransportAt mem pend t transport p k)
    (hhost : TextAt mem host pend hostText) (hlt : Precedes host hostText p k) (hp : TextAt mem p pend k) :
    (parsePortAt t host mem p pend).map (fun u => u.read pend) = parsePort transport hostText k := by
  obtain ⟨hport, hrest, -, -⟩ := hp.getField
  have hhost' := hhost.keeps hp hlt
  unfold parsePortAt parsePort
  simp only [hrest.ne_zero_iff]
  split
  · rfl
  · have hread : ∀ tr, (UrlAt.read ⟨(Xvc.getField mem p pend 58).1, tr, host, p⟩ pend).host = hostText ∧
        (UrlAt.read ⟨(Xvc.getField mem p pend 58).1, tr, host, p⟩ pend).port = (fieldOf 58 k).1 :=
      fun _ => ⟨hhost'.cstr_eq, hport.cstr_eq⟩
    have htr : (UrlAt.read ⟨(Xvc.getField mem p pend 58).1, t, host, p⟩ pend).transport = transport := by
      cases t with
      | none => exact Eq.symm ht
      | some s => exact (ht.1.keeps hp ht.2).cstr_eq
    exact congrArg Except.ok (Url.ext htr (hread t).1 (hread t).2)

end TextAt

theorem CString.textAt (t : CString) : TextAt t.copy 0 t.bytes.length t.bytes :=
  ⟨⟨slice_write _ 0 t.bytes, fun _ hb h0 => t.noNul (h0 ▸ hb)⟩, write_of_disjoint _ _ (by omega), by omega⟩

/-- **The parser** does with the copy what the text says. -/
theorem urlOf_eq (t : CString) : urlOf t = parseUrl t.bytes := by
  obtain ⟨htransport, hrest, hlt, -⟩ := t.textAt.getField
  unfold urlOf parseUrlAt parseUrl
  simp only [htransport.isTcpAt_eq]
  split
  · obtain ⟨hhost, hport, hlt', -⟩ := hrest.getField
    exact parsePortAt_eq ⟨htransport.keeps hrest hlt, hlt.trans hlt'⟩ hhost hlt' hport
  · simp only [hrest.strchr]
    split
    · exact parsePortAt_eq rfl htransport hlt hrest
    · rfl

/-! ## The grammar -/

/-- An address and its fields. The transport may be left out, and so may what comes last. -/
inductive Denotes : List UInt8 → Url → Prop
  | transport {t : List UInt8} (ht : isTcp t) : Denotes t ⟨t, [], []⟩
  | host {t h : List UInt8} (ht : isTcp t) (hh : 58 ∉ h) : Denotes (t ++ 58 :: h) ⟨t, h, []⟩
  | port {t h p : List UInt8} (ht : isTcp t) (hh : 58 ∉ h) (hp : 58 ∉ p) :
      Denotes (t ++ 58 :: (h ++ 58 :: p)) ⟨t, h, p⟩
  /-- A colon behind the port is not noticed. -/
  | colon {t h p : List UInt8} (ht : isTcp t) (hh : 58 ∉ h) (hp : 58 ∉ p) :
      Denotes (t ++ 58 :: (h ++ 58 :: (p ++ [58]))) ⟨t, h, p⟩
  | hostOnly {h : List UInt8} (ht : ¬ isTcp h) (hh : 58 ∉ h) : Denotes h ⟨ascii "tcp", h, []⟩
  | hostPort {h p : List UInt8} (ht : ¬ isTcp h) (hh : 58 ∉ h) (hp : 58 ∉ p) :
      Denotes (h ++ 58 :: p) ⟨ascii "tcp", h, p⟩

/-- The texts that are no address, with the code that is returned. -/
inductive Malformed : List UInt8 → Int → Prop
  | transport {t r : List UInt8} (ht : ¬ isTcp t) (hc : 58 ∉ t) (hr : 58 ∈ r) :
      Malformed (t ++ 58 :: r) errorInvalidUrlTransportType
  | field {t h p r : List UInt8} (ht : isTcp t) (hh : 58 ∉ h) (hp : 58 ∉ p) (hr : r ≠ []) :
      Malformed (t ++ 58 :: (h ++ 58 :: (p ++ 58 :: r))) errorInvalidUrlField

variable {url : List UInt8} {u : Url} {e : Int}

theorem Malformed.ne_zero (h : Malformed url e) : e ≠ 0 := by
  cases h <;> decide

theorem parseUrl_of_denotes (h : Denotes url u) : parseUrl url = .ok u := by
  cases h with
  | transport ht =>
    have hc := not_mem_of_isTcp ht
    simp [parseUrl, fieldOf_self hc, ht, fieldOf, parsePort]
  | host ht hh =>
    have hc := not_mem_of_isTcp ht
    simp [parseUrl, fieldOf_append hc, ht, fieldOf_self hh, fieldOf, parsePort]
  | port ht hh hp =>
    have hc := not_mem_of_isTcp ht
    simp [parseUrl, fieldOf_append hc, ht, fieldOf_append hh, fieldOf_self hp, parsePort]
  | colon ht hh hp =>
    have hc := not_mem_of_isTcp ht
    simp [parseUrl, fieldOf_append hc, ht, fieldOf_append hh, fieldOf_append hp, parsePort]
  | hostOnly ht hh => simp [parseUrl, fieldOf_self hh, ht, fieldOf, parsePort]
  | hostPort ht hh hp => simp [parseUrl, fieldOf_append hh, ht, hp, fieldOf_self hp, parsePort]

theorem parseUrl_of_malformed (h : Malformed url e) : parseUrl url = .error e := by
  cases h with
  | transport ht hc hr => simp [parseUrl, fieldOf_append hc, ht, hr]
  | field ht hh hp hr =>
    have hc := not_mem_of_isTcp ht
    simp [parseUrl, fieldOf_append hc, ht, fieldOf_append hh, fieldOf_append hp, parsePort, hr]

/-- Every text is an address or malformed. -/
theorem denotes_or_malformed (url : List UInt8) : (∃ u, Denotes url u) ∨ ∃ e, Malformed url e := by
  obtain ⟨t, hc, rfl | ⟨s, rfl⟩⟩ := field_cases 58 url
  · by_cases ht : isTcp url
    · exact .inl ⟨_, .transport ht⟩
    · exact .inl ⟨_, .hostOnly ht hc⟩
  by_cases ht : isTcp t
  · obtain ⟨h, hh, rfl | ⟨s, rfl⟩⟩ := field_cases 58 s
    · exact .inl ⟨_, .host ht hh⟩
    obtain ⟨p, hp, rfl | ⟨r, rfl⟩⟩ := field_cases 58 s
    · exact .inl ⟨_, .port ht hh hp⟩
    by_cases hr : r = []
    · subst hr
      exact .inl ⟨_, .colon ht hh hp⟩
    · exact .inr ⟨_, .field ht hh hp hr⟩
  · by_cases hs : 58 ∈ s
    · exact .inr ⟨_, .transport ht hc hs⟩
    · exact .inl ⟨_, .hostPort ht hc hs⟩

theorem parseUrl_eq_ok : parseUrl url = .ok u ↔ Denotes url u := by
  refine ⟨fun h => ?_, parseUrl_of_denotes⟩
  rcases denotes_or_malformed url with ⟨v, hv⟩ | ⟨e, he⟩
  · rw [parseUrl_of_denotes hv, Except.ok.injEq] at h
    rwa [← h]
  · rw [parseUrl_of_malformed he] at h
    cases h

theorem parseUrl_eq_error : parseUrl url = .error e ↔ Malformed url e := by
  refine ⟨fun h => ?_, parseUrl_of_malformed⟩
  rcases denotes_or_malformed url with ⟨v, hv⟩ | ⟨e', he⟩
  · rw [parseUrl_of_denotes hv] at h
    cases h
  · rw [parseUrl_of_malformed he, Except.error.injEq] at h
    rwa [← h]

/-! ## The address for the clients -/

/-- The host that is printed: the name of this one, when none was given. -/
def Url.named (u : Url) (hostname : List UInt8) : Url := { u with host := if u.host = [] then hostname else u.host }

/-- `%s:%s:%s`. -/
def Url.text (u : Url) : List UInt8 := u.transport ++ 58 :: (u.host ++ 58 :: u.port)

theorem Denotes.fields (h : Denotes url u) : isTcp u.transport ∧ 58 ∉ u.host ∧ 58 ∉ u.port := by
  have hnil : (58 : UInt8) ∉ ([] : List UInt8) := List.not_mem_nil
  have htcp : isTcp (ascii "tcp") := by decide
  cases h with
  | transport ht => exact ⟨ht, hnil, hnil⟩
  | host ht hh => exact ⟨ht, hh, hnil⟩
  | port ht hh hp => exact ⟨ht, hh, hp⟩
  | colon ht hh hp => exact ⟨ht, hh, hp⟩
  | hostOnly _ hh => exact ⟨htcp, hh, hnil⟩
  | hostPort _ hh hp => exact ⟨htcp, hh, hp⟩

/-- **The address of a server.** The texts that `xvcserver_start` accepts and their fields are exactly those of the
grammar, and it refuses the others with the code of their defect. The address that it prints for its clients is
accepted again, for the same fields, as long as the name of the host has no colon. -/
theorem url_fields (t : CString) :
    (∀ u, urlOf t = .ok u ↔ Denotes t.bytes u) ∧ (∀ e, urlOf t = .error e ↔ Malformed t.bytes e) ∧
      ∀ u hostname t', urlOf t = .ok u → 58 ∉ hostname → t'.bytes = (u.named hostname).text →
        urlOf t' = .ok (u.named hostname) := by
  simp only [urlOf_eq]
  refine ⟨fun _ => parseUrl_eq_ok, fun _ => parseUrl_eq_error, fun u hostname t' hu hname htext => ?_⟩
  obtain ⟨ht, hh, hp⟩ := (parseUrl_eq_ok.mp hu).fields
  rw [htext]
  refine parseUrl_of_denotes (.port ht ?_ hp)
  unfold Url.named
  dsimp only
  split
  · exact hname
  · exact hh

/-- The default address, on a host that is called `board`. -/
theorem url_fields_default :
    urlOf ⟨ascii "tcp:board:2542", by decide⟩ = .ok ⟨ascii "tcp", ascii "board", ascii "2542"⟩ :=
  (url_fields ⟨ascii "tcp::2542", by decide⟩).2.2 ⟨ascii "tcp", [], ascii "2542"⟩ (ascii "board") _ (by rfl)
    (by decide) (by decide)

end Xvc
