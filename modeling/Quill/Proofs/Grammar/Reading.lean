import Quill.Grammar.Program

set_option autoImplicit false

namespace Quill

def Clear (symbols : List Symbol) (ts : List Token) : Prop :=
  ∀ t us, ts = t :: us → ¬symbols.any t.is

abbrev Reading (α : Type) := List Token → List Token → RefId → RefId → α → Prop

namespace Reading

variable {α β : Type}

def andThen (R : Reading α) (S : α → Reading β) : Reading β := fun ts rest lo hi y =>
  ∃ a b mid x, ts = a ++ b ∧ R a (b ++ rest) lo mid x ∧ S x b rest mid hi y

def silent (x : α) : Reading α := fun ts _ lo hi y => ts = [] ∧ hi = lo ∧ y = x

def token (s : Symbol) : Reading Token := fun ts _ lo hi t => ts = [t] ∧ hi = lo ∧ t.is s

def either (symbols : List Symbol) (T : Token → Reading α) (S : Reading α) : Reading α :=
  fun ts rest lo hi x =>
    (∃ t us, ts = t :: us ∧ symbols.any t.is ∧ T t us rest lo hi x) ∨
      (Clear symbols (ts ++ rest) ∧ S ts rest lo hi x)

end Reading

def ReadsFrom {α : Type} (c : Cursor) (k : Nat) (p : Parser α) (R : Reading α) : Prop :=
  match p c with
  | .ok x c' =>
    c'.ahead.length + k ≤ c.ahead.length ∧
      (c'.reported = [] → c.reported = [] ∧
        ∃ ts, c.ahead = ts ++ c'.ahead ∧ R ts c'.ahead c.nextId c'.nextId x)
  | .error _ c' => c'.ahead.length ≤ c.ahead.length

def Reads {α : Type} (n k : Nat) (p : Parser α) (R : Reading α) : Prop :=
  ∀ c : Cursor, c.ahead.length ≤ n → ReadsFrom c k p R

namespace Reads

variable {α β : Type} {n k j : Nat} {p : Parser α} {R : Reading α}

theorem mono {R' : Reading α} {n' k' : Nat} (h : Reads n k p R) (hn : n' ≤ n) (hk : k' ≤ k)
    (hR : ∀ ts rest lo hi x, R ts rest lo hi x → R' ts rest lo hi x) : Reads n' k' p R' := by
  intro c hc
  have hp := h c (by omega)
  unfold ReadsFrom at hp ⊢
  split
  next x c' hx =>
    rw [hx] at hp
    refine ⟨by omega, fun clean => ?_⟩
    obtain ⟨before, ts, hts, hr⟩ := hp.2 clean
    exact ⟨before, ts, hts, hR _ _ _ _ _ hr⟩
  next e c' hx =>
    rw [hx] at hp
    exact hp

theorem le {n' k' : Nat} (h : Reads n k p R) (hn : n' ≤ n) (hk : k' ≤ k) : Reads n' k' p R :=
  h.mono hn hk fun _ _ _ _ _ hr => hr

theorem weaken {R' : Reading α} (h : Reads n k p R)
    (hR : ∀ ts rest lo hi x, R ts rest lo hi x → R' ts rest lo hi x) : Reads n k p R' :=
  h.mono (Nat.le_refl _) (Nat.le_refl _) hR

theorem bind {f : α → Parser β} {S : α → Reading β} (hp : Reads n k p R)
    (hf : ∀ x, Reads (n - k) j (f x) (S x)) : Reads n (k + j) (p >>= f) (R.andThen S) := by
  intro c hc
  have first := hp c hc
  unfold ReadsFrom at first ⊢
  change match EStateM.bind p f c with | .ok x c' => _ | .error _ c' => _
  unfold EStateM.bind
  cases hx : p c with
  | error e c' =>
    rw [hx] at first
    exact first
  | ok x c' =>
    rw [hx] at first
    have second := hf x c' (by omega)
    unfold ReadsFrom at second
    simp only
    cases hy : f x c' with
    | error e c'' =>
      rw [hy] at second
      simp only at second ⊢
      omega
    | ok y c'' =>
      rw [hy] at second
      refine ⟨by simp only at second ⊢; omega, fun clean => ?_⟩
      -- Reports are never taken back: a clean end means that all was clean in between.
      obtain ⟨between, b, hb, hs⟩ := second.2 clean
      obtain ⟨before, a, ha, hr⟩ := first.2 between
      refine ⟨before, a ++ b, by rw [ha, hb, List.append_assoc], a, b, c'.nextId, x, rfl, ?_, hs⟩
      rw [← hb]
      exact hr

theorem pure (x : α) : Reads n 0 (Pure.pure x) (Reading.silent x) := by
  intro c _
  exact ⟨Nat.le_refl _, fun clean => ⟨clean, [], rfl, rfl, rfl, rfl⟩⟩

theorem map {f : α → β} {S : Reading β} (hp : Reads n k p R)
    (hS : ∀ ts rest lo hi x, R ts rest lo hi x → S ts rest lo hi (f x)) :
    Reads n k (f <$> p) S := by
  intro c hc
  have first := hp c hc
  unfold ReadsFrom at first ⊢
  change match EStateM.map f p c with | .ok x c' => _ | .error _ c' => _
  unfold EStateM.map
  cases hx : p c with
  | error e c' =>
    rw [hx] at first
    exact first
  | ok x c' =>
    rw [hx] at first
    refine ⟨first.1, fun clean => ?_⟩
    obtain ⟨before, ts, hts, hr⟩ := first.2 clean
    exact ⟨before, ts, hts, hS _ _ _ _ _ hr⟩

theorem fail (fault : SyntaxFault) : Reads n k (Parser.fail fault : Parser α) R := by
  intro c _
  exact Nat.le_refl _

end Reads

namespace Cursor

def next? (c : Cursor) : Option Symbol :=
  match c.ahead with
  | ⟨.symbol s, _, _⟩ :: _ => some s
  | _ => none

theorem ahead_of_next? {c : Cursor} {s : Symbol} (h : c.next? = some s) :
    ∃ rest, c.ahead = c.here :: rest ∧ c.here.is s := by
  rcases c with ⟨_ | ⟨⟨kind, lexeme, line⟩, rest⟩, last, reported, nextId⟩
  · cases h
  · cases kind with
    | symbol s' =>
      cases h
      exact ⟨rest, rfl, by simp [here, Token.is]⟩
    | string _ | number _ => cases h

end Cursor

namespace Parser

theorem peek?_bind {β : Type} (f : Option Symbol → Parser β) (c : Cursor) :
    (peek? >>= f) c = f c.next? c := by
  change EStateM.bind peek? f c = _
  rcases c with ⟨_ | ⟨⟨kind, lexeme, line⟩, rest⟩, last, reported, nextId⟩
  · rfl
  · cases kind <;> rfl

theorem expect_apply (s : Symbol) (fault : SyntaxFault) (t : Token) (rest : List Token)
    (last : Token) (reported : List Error) (nextId : RefId) :
    expect s fault ⟨t :: rest, last, reported, nextId⟩ =
      if t.is s then .ok t ⟨rest, last, reported, nextId⟩
      else .error (.syntactic fault t) ⟨t :: rest, last, reported, nextId⟩ := by
  change EStateM.bind (accept? s) _ _ = _
  by_cases hit : t.is s <;> simp [EStateM.bind, accept?, acceptAny?, hit] <;> rfl

end Parser

open Quill.Parser in
theorem Grammar.atBlockEnd_apply (t : Token) (ts : List Token) (last : Token)
    (reported : List Error) (lo : RefId) : atBlockEnd ⟨t :: ts, last, reported, lo⟩ =
      .ok (t.is .rightBrace) ⟨t :: ts, last, reported, lo⟩ := by
  change (if t.is .rightBrace then pure true else atEnd : Parser Bool) _ = _
  cases t.is .rightBrace <;> rfl

namespace ReadsFrom

variable {α : Type} {c : Cursor} {n j k : Nat} {p q : Parser α} {R S : Reading α}

theorem stay (same : p c = q c) (later : ReadsFrom c k q S)
    (hR : ∀ ts rest lo hi x, c.ahead = ts ++ rest → S ts rest lo hi x → R ts rest lo hi x) :
    ReadsFrom c k p R := by
  unfold ReadsFrom at later ⊢
  rw [same]
  cases hx : q c with
  | error e c' =>
    rw [hx] at later
    exact later
  | ok x c' =>
    rw [hx] at later
    refine ⟨later.1, fun clean => ?_⟩
    obtain ⟨before, ts, hts, hs⟩ := later.2 clean
    exact ⟨before, ts, hts, hR _ _ _ _ _ hts hs⟩

theorem behind {t : Token} {us : List Token} (ahead : c.ahead = t :: us)
    (same : p c = q { c with ahead := us }) (hk : k ≤ j + 1)
    (later : ReadsFrom { c with ahead := us } j q S)
    (hR : ∀ ts rest lo hi x, S ts rest lo hi x → R (t :: ts) rest lo hi x) :
    ReadsFrom c k p R := by
  unfold ReadsFrom at later ⊢
  rw [same, ahead]
  cases hx : q { c with ahead := us } with
  | error e c' =>
    rw [hx] at later
    simp only [List.length_cons] at later ⊢
    omega
  | ok x c' =>
    rw [hx] at later
    refine ⟨by simp only [List.length_cons] at later ⊢; omega, fun clean => ?_⟩
    obtain ⟨before, ts, hts, hs⟩ := later.2 clean
    simp only at hts
    exact ⟨before, t :: ts, by simp [hts], hR _ _ _ _ _ hs⟩

theorem skip {t : Token} {us : List Token} {f : Unit → Parser α} (ahead : c.ahead = t :: us)
    (hn : c.ahead.length ≤ n) (hk : k ≤ j + 1) (hf : Reads (n - 1) j (f ()) S)
    (hR : ∀ ts rest lo hi x, S ts rest lo hi x → R (t :: ts) rest lo hi x) :
    ReadsFrom c k (Parser.skip >>= f) R := by
  rw [ahead, List.length_cons] at hn
  refine behind (q := f ()) ahead ?_ hk
    (hf { c with ahead := us } (show us.length ≤ n - 1 by omega)) hR
  change f () { c with ahead := c.ahead.tail } = _
  rw [ahead, List.tail_cons]

end ReadsFrom

namespace Reads

variable {α : Type} {n k : Nat} {R S : Reading α}

theorem acceptAny {symbols : List Symbol} {f : Option Token → Parser α} {T : Token → Reading α}
    (taken : ∀ t, 0 < n → Reads (n - 1) (k - 1) (f (some t)) (T t))
    (left : Reads n k (f none) S) :
    Reads n k (Parser.acceptAny? symbols >>= f) (Reading.either symbols T S) := by
  intro c hc
  have absent (h : Parser.acceptAny? symbols c = .ok none c) (clear : Clear symbols c.ahead) :
      ReadsFrom c k (Parser.acceptAny? symbols >>= f) (Reading.either symbols T S) := by
    refine ReadsFrom.stay (q := f none) ?_ (left c hc) fun ts rest lo hi x hts hs =>
      .inr ⟨hts ▸ clear, hs⟩
    exact Parser.bind_ok h f
  rcases c with ⟨_ | ⟨t, us⟩, last, reported, nextId⟩
  · exact absent rfl fun t us same => by cases same
  · by_cases hit : symbols.any t.is
    · refine ReadsFrom.behind (q := f (some t)) rfl ?_ (by omega)
        (taken t (by simp only [List.length_cons] at hc; omega) ⟨us, last, reported, nextId⟩ ?_)
        fun ts rest lo hi x ht => .inl ⟨t, ts, rfl, hit, ht⟩
      · refine Parser.bind_ok ?_ f
        simp only [Parser.acceptAny?, hit, if_true]
      · simp only [List.length_cons] at hc
        show us.length ≤ n - 1
        omega
    · refine absent (by simp [Parser.acceptAny?, hit]) fun u us same => ?_
      obtain ⟨rfl, -⟩ := List.cons.inj same
      exact hit

theorem check {s : Symbol} {f : Bool → Parser α} (met : Reads n k (f true) R)
    (other : Reads n k (f false) R) : Reads n k (Parser.check s >>= f) R := by
  intro c hc
  have step : ∃ b, (Parser.check s >>= f) c = f b c := by
    rcases c with ⟨_ | ⟨t, us⟩, last, reported, nextId⟩
    · exact ⟨false, rfl⟩
    · exact ⟨t.is s, rfl⟩
  obtain ⟨b, hb⟩ := step
  refine ReadsFrom.stay hb ?_ fun _ _ _ _ _ _ h => h
  cases b with
  | true => exact met c hc
  | false => exact other c hc

theorem peek {f : Option Symbol → Parser α}
    (h : ∀ c : Cursor, c.ahead.length ≤ n → ReadsFrom c k (f c.next?) R) :
    Reads n k (Parser.peek? >>= f) R := fun c hc =>
  ReadsFrom.stay (Parser.peek?_bind f c) (h c hc) fun _ _ _ _ _ _ h => h

theorem expect (n : Nat) (s : Symbol) (fault : SyntaxFault) :
    Reads n 1 (Parser.expect s fault) (Reading.token s) := by
  intro c _
  rcases c with ⟨_ | ⟨t, rest⟩, last, reported, nextId⟩
  · exact Nat.le_refl _
  · unfold ReadsFrom
    rw [Parser.expect_apply]
    by_cases hit : t.is s
    · simp only [hit, if_true]
      exact ⟨Nat.le_refl _, fun clean => ⟨clean, [t], rfl, rfl, rfl, hit⟩⟩
    · simp only [hit]
      exact Nat.le_refl _

theorem freshId (n : Nat) :
    Reads n 0 Parser.freshId fun ts _ lo hi id => ts = [] ∧ id = lo ∧ hi = lo + 1 := by
  intro c _
  exact ⟨Nat.le_refl _, fun clean => ⟨clean, [], rfl, rfl, rfl, rfl⟩⟩

theorem reportAt (n : Nat) (t : Token) (fault : SyntaxFault) :
    Reads n 0 (Parser.reportAt t fault) fun _ _ _ _ _ => False := by
  intro c _
  exact ⟨Nat.le_refl _, fun clean => by simp [Cursor.report] at clean⟩

theorem reportHere (n : Nat) (fault : SyntaxFault) :
    Reads n 0 (Parser.reportHere fault) fun _ _ _ _ _ => False := by
  intro c _
  exact ⟨Nat.le_refl _, fun clean => by simp [Cursor.report] at clean⟩

end Reads

structure Numbered (lo hi : Nat) (ids : List Nat) : Prop where
  le : lo ≤ hi
  mem : ∀ id ∈ ids, lo ≤ id ∧ id < hi
  nodup : ids.Nodup

namespace Numbered

variable {lo mid hi : Nat} {a b : List Nat}

theorem nil (lo : Nat) : Numbered lo lo [] :=
  ⟨Nat.le_refl _, by simp, List.nodup_nil⟩

theorem one (lo : Nat) : Numbered lo (lo + 1) [lo] :=
  ⟨Nat.le_succ _, by simp, by simp⟩

theorem append (ha : Numbered lo mid a) (hb : Numbered mid hi b) : Numbered lo hi (a ++ b) := by
  refine ⟨Nat.le_trans ha.le hb.le, ?_, ?_⟩
  · intro id hid
    rcases List.mem_append.mp hid with h | h
    · exact ⟨(ha.mem id h).1, Nat.lt_of_lt_of_le (ha.mem id h).2 hb.le⟩
    · exact ⟨Nat.le_trans ha.le (hb.mem id h).1, (hb.mem id h).2⟩
  · refine List.nodup_append.mpr ⟨ha.nodup, hb.nodup, ?_⟩
    intro x hx y hy same
    have := (ha.mem x hx).2
    have := (hb.mem y hy).1
    omega

theorem later (h : Numbered mid hi a) (le : lo ≤ mid) : Numbered lo hi a :=
  ⟨Nat.le_trans le h.le, fun id hid => ⟨Nat.le_trans le (h.mem id hid).1, (h.mem id hid).2⟩, h.nodup⟩

theorem perm (h : Numbered lo hi a) (p : a.Perm b) : Numbered lo hi b :=
  ⟨h.le, fun id hid => h.mem id (p.mem_iff.mpr hid), p.nodup_iff.mp h.nodup⟩

end Numbered

end Quill
