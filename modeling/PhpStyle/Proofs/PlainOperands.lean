import PhpStyle.Proofs.ParenOwners
import PhpStyle.Rules.Yoda

/-!
# What the operands of a swapped comparison hold

The constant on the left is a literal, a name, a constant of a class or a whole short array
(`Constant`), and the operand on the right is swapped only if each of its tokens is plain
(`isPlain_iff`). So of the tokens by which an evaluation acts on anything, a right operand can hold
a shell command only. The same goes for the left one unless it is an array: the elements of an array
are not looked at (`fixable_acts`, `call_in_array_swapped`).
-/

namespace PhpStyle

theorem IsPair.openArray {ks : List Kind} {p : Nat × Nat} (h : IsPair ks p)
    (hclose : ks[p.2]? = some .closeArray) : ks[p.1]? = some .openArray := by
  obtain ⟨o, c, ho, hc, hoc⟩ := h.kinds
  obtain rfl : c = .closeArray := Option.some.inj (hc.symm.trans hclose)
  cases o <;> first | exact ho | cases hoc

theorem Gap.isTrivia {ks : List Kind} {a b i : Nat} {k : Kind} (h : Gap ks a b) (ha : a < i)
    (hb : i < b) (hk : ks[i]? = some k) : k.isTrivia = true := by
  by_contra htrivia
  exact h.trivia i ha hb ⟨k, hk, by simpa [Kind.isEffective] using htrivia⟩

namespace Tokens

/-- The tokens from `first` through `last`. -/
def between (ts : Tokens) (first last : Nat) : List Token :=
  (ts.items.toList.drop first).take (last + 1 - first)

theorem mem_between {ts : Tokens} {first last : Nat} {t : Token} (h : t ∈ ts.between first last) :
    ∃ i, first ≤ i ∧ i ≤ last ∧ ts.get? i = some t := by
  obtain ⟨n, hn⟩ := List.mem_iff_getElem?.1 h
  rw [between, List.getElem?_take] at hn
  split at hn
  · rw [List.getElem?_drop, Array.getElem?_toList] at hn
    exact ⟨first + n, by omega, by omega, hn⟩
  · cases hn

theorem kinds_of_get? {ts : Tokens} {i : Nat} {t : Token} (h : ts.get? i = some t) :
    ts.kinds[i]? = some t.kind := by
  rw [getElem?_kinds, kind?, h, Option.map_some]

theorem mem_pairs_of_closeArray {source : String} {i o : Nat} {t : Token}
    (ht : (ofSource source).get? i = some t) (hk : t.kind = .closeArray)
    (ho : t.links.bracketOpener = some o) : (o, i) ∈ (ofSource source).pairs := by
  have hlinks : ((ofSource source).bracketLinks i).1 = some o := by
    simp only [bracketLinks, links, ht, Option.map_some, Option.getD_some, Links.brackets, ho]
  have hkind : (ofSource source).kinds[i]? = some .closeArray := by
    rw [kinds_of_get? ht, hk]
  rcases bracketLinks_cases source i with ⟨p, hp, hi, hcarries⟩ | hnone
  · rw [hcarries] at hlinks
    cases hlinks
    rcases hi with rfl | rfl
    · -- a closing bracket opens no pair
      obtain ⟨k, c, hopen, -, hkc⟩ := ((pairs_spec _).isPair p hp).kinds
      cases hkind.symm.trans hopen
      cases hkc
    · exact hp
  · rw [hnone] at hlinks
    cases hlinks

end Tokens

namespace Rules.Yoda

open Tokens

/-- The forms of a constant, from its first through its last token. -/
inductive Constant (ts : Tokens) : Nat → Nat → Prop
  | literal {i : Nat} {k : Kind} (hi : ts.kinds[i]? = some k) (hk : k.isLiteral = true) :
      Constant ts i i
  | named {i : Nat} (hi : ts.kinds[i]? = some .name) : Constant ts i i
  | member {first mark last : Nat} (hmark : ts.kinds[mark]? = some .doubleColon)
      (hfirst : ts.kinds[first]? = some .name ∨ ts.kinds[first]? = some .kwStatic)
      (hlast : ts.kinds[last]? = some .name) (hleft : Gap ts.kinds first mark)
      (hright : Gap ts.kinds mark last) : Constant ts first last
  | array {first last : Nat} (h : (first, last) ∈ ts.pairs)
      (hfirst : ts.kinds[first]? = some .openArray) (hlast : ts.kinds[last]? = some .closeArray) :
      Constant ts first last

theorem constant_of_constantStart? {source : String} {first last : Nat}
    (h : constantStart? (.ofSource source) last = some first) :
    Constant (.ofSource source) first last := by
  have hpairs : ∀ {i o t}, (ofSource source).get? i = some t → t.kind = .closeArray →
      t.links.bracketOpener = some o → (o, i) ∈ (ofSource source).pairs := mem_pairs_of_closeArray
  generalize ofSource source = ts at h hpairs ⊢
  obtain ⟨t, ht, h⟩ := Option.bind_eq_some_iff.1 h
  have hkind := kinds_of_get? ht
  split at h
  · rename_i hclose
    rw [hclose] at hkind
    have hpair := hpairs ht hclose h
    exact .array hpair ((ts.pairs_spec.isPair _ hpair).openArray hkind) hkind
  split at h
  · cases h
  rename_i hconstant
  split at h
  · rename_i hname
    rw [hname] at hkind
    obtain rfl := Option.some.inj h
    generalize hclass : Option.filter _ _ = classIndex
    cases classIndex with
    | none => exact .named hkind
    | some c =>
      obtain ⟨hc, hckind⟩ := Option.filter_eq_some_iff.1 hclass
      obtain ⟨m, hm, hprev⟩ := Option.bind_eq_some_iff.1 hc
      obtain ⟨hm, hmkind⟩ := Option.filter_eq_some_iff.1 hm
      obtain ⟨k, hk, hkc⟩ := kindIs_iff.1 hckind
      have hfirst : ts.kinds[c]? = some .name ∨ ts.kinds[c]? = some .kwStatic := by
        simp only [Bool.or_eq_true, beq_iff_eq] at hkc
        rcases hkc with rfl | rfl
        · exact .inl hk
        · exact .inr hk
      exact .member (kindIs_beq.1 hmkind) hfirst hkind (gap_of_previousEffective hprev).2
        (gap_of_previousEffective hm).2
  · rename_i hname
    obtain rfl := Option.some.inj h
    have hliteral : t.kind.isLiteral = true := by
      simpa [isConstant, hname] using hconstant
    exact .literal hkind hliteral

/-- What the operands of the comparison at `i` are. -/
structure Compares (ts : Tokens) (i : Nat) (o : Operands) : Prop where
  leftLast : ts.previousEffective i = some o.leftLast
  leftFirst : constantStart? ts o.leftLast = some o.leftFirst
  starts : o.leftFirst ≤ (ts.statementAt i).first ∨
    (ts.previousEffective o.leftFirst).all (ts.kindIs precedesOperand) = true
  rightFirst : ts.nextEffective i = some o.rightFirst
  rightLast : operandEnd? ts i (ts.statementAt i).last = some o.rightLast
  varies : constantStart? ts o.rightLast ≠ some o.rightFirst

theorem compares_of_operands? {ts : Tokens} {i : Nat} {o : Operands} (h : operands? ts i = some o) :
    Compares ts i o := by
  obtain ⟨leftLast, hleftLast, h⟩ := Option.bind_eq_some_iff.1 h
  obtain ⟨leftFirst, hleftFirst, h⟩ := Option.bind_eq_some_iff.1 h
  obtain ⟨_, hstarts, h⟩ := Option.bind_eq_some_iff.1 h
  obtain ⟨rightFirst, hrightFirst, h⟩ := Option.bind_eq_some_iff.1 h
  obtain ⟨rightLast, hrightLast, h⟩ := Option.bind_eq_some_iff.1 h
  obtain ⟨_, hvaries, h⟩ := Option.bind_eq_some_iff.1 h
  simp only [Option.guard_eq_some', decide_eq_true_eq, Bool.or_eq_true] at hstarts hvaries
  obtain rfl := Option.some.inj h
  exact ⟨hleftLast, hleftFirst, hstarts, hrightFirst, hrightLast, hvaries⟩

/-- The edits that let the operands change places. -/
def swap (ts : Tokens) (o : Operands) : List Edit :=
  overwrite o.leftFirst o.leftLast (ts.contentBetween o.rightFirst o.rightLast) ++
    overwrite o.rightFirst o.rightLast (ts.contentBetween o.leftFirst o.leftLast)

theorem operands_of_fix {ts : Tokens} {i : Nat} {f : Finding} {es : List Edit}
    (h : finding? ts i = some f) (hfix : f.fix = some es) :
    ∃ o, operands? ts i = some o ∧ isPlain ts o.rightFirst o.rightLast = true ∧ es = swap ts o := by
  obtain ⟨o, ho, hf⟩ := Option.bind_eq_some_iff.1 h
  refine ⟨o, ho, ?_⟩
  split at hf
  · rename_i hplain
    cases hf
    exact ⟨hplain, (Option.some.inj hfix).symm⟩
  · cases hf
    cases hfix

theorem isPlain_iff {ts : Tokens} {first last : Nat} :
    isPlain ts first last = true ↔ ∀ i, first ≤ i → i ≤ last → isPlainAt ts i = true := by
  simp only [isPlain, List.all_eq_true, List.mem_range'_1]
  refine ⟨fun h i hf hl => h i ⟨hf, by omega⟩, fun h i hi => h i hi.1 (by omega)⟩

/-- The kinds that a plain operand is made of. -/
def isPlainKind (k : Kind) : Bool :=
  k == .variableName || k == .arrow || k == .doubleColon || k == .openSquare || k == .closeSquare ||
    k == .name || k.isLiteral || k.isBlank

theorem isPlainKind_of_isPlainAt {ts : Tokens} {i : Nat} (h : isPlainAt ts i = true) :
    ∃ k, ts.kinds[i]? = some k ∧ isPlainKind k = true := by
  rw [isPlainAt, ← getElem?_kinds] at h
  cases hk : ts.kinds[i]? with
  | none => simp [hk] at h
  | some k =>
    refine ⟨k, rfl, ?_⟩
    rw [hk] at h
    cases k <;> first | rfl | cases h

def isCommand (t : Token) : Bool :=
  t.kind == .quoted && t.content.toList.head? == some '\x60'

/-- The tokens by which an evaluation acts on anything: a call, an assignment, a step up or down,
the creation of an object, a shell command. -/
def acts (t : Token) : Bool :=
  t.kind == .openParen || t.kind == .assign || t.kind == .kwNew ||
    (t.kind == .operator && (t.content == "++" || t.content == "--")) || isCommand t

theorem isCommand_of_acts {t : Token}
    (hk : isPlainKind t.kind = true ∨ t.kind = .kwStatic ∨ t.kind.isTrivia = true)
    (h : acts t = true) : isCommand t = true := by
  simp only [acts, Bool.or_eq_true, Bool.and_eq_true, beq_iff_eq] at h
  rcases h with (((h | h) | h) | ⟨h, -⟩) | h
  · simp [h, isPlainKind, Kind.isLiteral, Kind.isBlank, Kind.isTrivia] at hk
  · simp [h, isPlainKind, Kind.isLiteral, Kind.isBlank, Kind.isTrivia] at hk
  · simp [h, isPlainKind, Kind.isLiteral, Kind.isBlank, Kind.isTrivia] at hk
  · simp [h, isPlainKind, Kind.isLiteral, Kind.isBlank, Kind.isTrivia] at hk
  · exact h

theorem Constant.isCommand_of_acts {ts : Tokens} {first last : Nat} (h : Constant ts first last) :
    (∀ t ∈ ts.between first last, acts t = true → isCommand t = true) ∨
      (first, last) ∈ ts.pairs ∧ ts.kinds[first]? = some .openArray := by
  rw [or_iff_not_imp_right]
  intro harray t ht
  obtain ⟨i, hfirst, hlast, hi⟩ := mem_between ht
  have hkind := kinds_of_get? hi
  refine Yoda.isCommand_of_acts ?_
  cases h with
  | literal h hk =>
    obtain rfl : i = first := by omega
    obtain rfl := Option.some.inj (hkind.symm.trans h)
    exact .inl (by simp [isPlainKind, hk])
  | named h =>
    obtain rfl : i = first := by omega
    have hname := Option.some.inj (hkind.symm.trans h)
    exact .inl (by rw [hname]; rfl)
  | member hmark hclass hname hleft hright =>
    rename_i mark
    have hlt := hleft.lt
    have hlt' := hright.lt
    rcases Nat.lt_or_eq_of_le hfirst with hfirst | rfl
    · rcases Nat.lt_trichotomy i mark with hi | rfl | hi
      · exact .inr (.inr (hleft.isTrivia hfirst hi hkind))
      · have hcolons := Option.some.inj (hkind.symm.trans hmark)
        exact .inl (by rw [hcolons]; rfl)
      · rcases Nat.lt_or_eq_of_le hlast with hlast | rfl
        · exact .inr (.inr (hright.isTrivia hi hlast hkind))
        · have hname := Option.some.inj (hkind.symm.trans hname)
          exact .inl (by rw [hname]; rfl)
    · rw [hkind] at hclass
      rcases hclass with hclass | hclass
      · exact .inl (by rw [Option.some.inj hclass]; rfl)
      · exact .inr (.inl (Option.some.inj hclass))
  | array hpair hopen => exact absurd ⟨hpair, hopen⟩ harray

/-- In the operands of a comparison that is swapped nothing acts but shell commands, and what the
elements of a short array on the left hold. -/
theorem fixable_acts (source : String) {i : Nat} {f : Finding} {es : List Edit}
    (h : finding? (.ofSource source) i = some f) (hfix : f.fix = some es) :
    ∃ o, operands? (.ofSource source) i = some o ∧ es = swap (.ofSource source) o ∧
      (∀ t ∈ (ofSource source).between o.rightFirst o.rightLast,
        acts t = true → isCommand t = true) ∧
      ((∀ t ∈ (ofSource source).between o.leftFirst o.leftLast,
        acts t = true → isCommand t = true) ∨
        (o.leftFirst, o.leftLast) ∈ (ofSource source).pairs ∧
          (ofSource source).kinds[o.leftFirst]? = some .openArray) := by
  obtain ⟨o, ho, hplain, hes⟩ := operands_of_fix h hfix
  have hconstant := constant_of_constantStart? (compares_of_operands? ho).leftFirst
  refine ⟨o, ho, hes, fun t ht => ?_, hconstant.isCommand_of_acts⟩
  obtain ⟨j, hfirst, hlast, hj⟩ := mem_between ht
  obtain ⟨k, hk, hkind⟩ := isPlainKind_of_isPlainAt (isPlain_iff.1 hplain j hfirst hlast)
  obtain rfl := Option.some.inj ((kinds_of_get? hj).symm.trans hk)
  exact isCommand_of_acts (.inl hkind)

theorem member_before_index :
    let ts := ofSource "<?php return A::B === $x['k']->y;"
    ∃ f es, finding? ts 8 = some f ∧ f.fix = some es ∧
      ∃ o, operands? ts 8 = some o ∧ es = swap ts o ∧
        (∀ t ∈ ts.between o.rightFirst o.rightLast, acts t = true → isCommand t = true) ∧
        ((∀ t ∈ ts.between o.leftFirst o.leftLast, acts t = true → isCommand t = true) ∨
          (o.leftFirst, o.leftLast) ∈ ts.pairs ∧ ts.kinds[o.leftFirst]? = some .openArray) := by
  intro ts
  obtain ⟨es, hes⟩ : ∃ es, (finding? ts 8).bind (·.fix) = some es :=
    Option.isSome_iff_exists.1 (by decide +kernel)
  obtain ⟨f, hf, hfix⟩ := Option.bind_eq_some_iff.1 hes
  exact ⟨f, es, hf, hfix, fixable_acts _ hf hfix⟩

/-- The call in the array changes sides with it. -/
theorem call_in_array_swapped :
    let ts := ofSource "<?php $a = [f()] === $x;"
    ∃ o, operands? ts 12 = some o ∧ (finding? ts 12).bind (·.fix) = some (swap ts o) ∧
      ∃ t ∈ ts.between o.leftFirst o.leftLast, t.kind = .openParen := by
  refine ⟨⟨6, 10, 14, 14⟩, ?_, ?_, ?_⟩ <;> decide +kernel

end Rules.Yoda

end PhpStyle
