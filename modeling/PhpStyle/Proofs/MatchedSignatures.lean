import PhpStyle.Proofs.MatchedTokens
import PhpStyle.Signature

/-!
# Signatures of sources with the same code

Each reader of a declaration takes its steps over effective tokens and passes over the others, so
that on two sources with the same code it stays at places of one rank
(`SameCode.splitAtCommas`, `SameCode.parameterHead`, `SameCode.propertyHead`) and comes to the same
signature (`SameCode.signature?`) and to the same property (`SameCode.property?`). The one exception
is a default whose equals sign is not one of the three tokens behind the name, blanks and comments
counted (`Tokens.DefaultInReach`): it is not seen.
-/

namespace PhpStyle

namespace Tokens

variable {ts : Tokens} {i start stop : Nat}

theorem isTrivia_of_not_effectiveAt {t : Token} (h : ¬ EffectiveAt ts.kinds i) (ht : ts.get? i = some t) :
    t.kind.isTrivia = true := by
  rw [← any_isEffective_iff, ht] at h
  simpa [isEffective, Kind.isEffective] using h

theorem splitAtCommas_eq {t : Token} (hi : i < stop) (ht : ts.get? i = some t) :
    ts.splitAtCommas start i stop =
      if t.kind.isOpener then
        ts.splitAtCommas start (max (t.links.bracketCloser.getD i + 1) (i + 1)) stop
      else if t.kind = .comma then (start, i) :: ts.splitAtCommas (i + 1) (i + 1) stop
      else ts.splitAtCommas start (i + 1) stop := by
  rw [splitAtCommas, if_pos hi, ht]

theorem splitAtCommas_of_trivia (hi : i < stop) (h : ¬ EffectiveAt ts.kinds i) :
    ts.splitAtCommas start i stop = ts.splitAtCommas start (i + 1) stop := by
  cases ht : ts.get? i with
  | none => rw [splitAtCommas, if_pos hi, ht]
  | some t =>
    have htrivia := isTrivia_of_not_effectiveAt h ht
    rw [splitAtCommas_eq hi ht]
    have hopener : t.kind.isOpener = false := by
      revert htrivia
      cases t.kind <;> decide
    have hcomma : t.kind ≠ .comma := by
      intro hcomma
      rw [hcomma] at htrivia
      cases htrivia
    simp [hopener, hcomma]

/-- The keywords before a parameter that also declares a property. -/
def promotes : Kind → Bool
  | .kwPublic | .kwProtected | .kwPrivate | .kwReadonly => true
  | _ => false

/-- What a parameter's reader does at each kind of token. -/
theorem parameterHead_eq (head : ParameterHead) {t : Token} (hi : i < stop) (ht : ts.get? i = some t) :
    ts.parameterHead head i stop =
      if t.kind = .openAttribute then
        ts.parameterHead head (max (t.links.bracketCloser.getD i + 1) (i + 1)) stop
      else if t.kind = .variableName then some (head, i)
      else if t.kind = .ellipsis then ts.parameterHead { head with variadic := true } (i + 1) stop
      else if promotes t.kind then ts.parameterHead { head with promoted := true } (i + 1) stop
      else if t.kind = .bitwiseAnd ∧ (ts.nextEffective i).any
          (ts.kindIs fun k => k == .variableName || k == .ellipsis) = true then
        ts.parameterHead { head with byReference := true } (i + 1) stop
      else if t.kind.isTrivia then ts.parameterHead head (i + 1) stop
      else ts.parameterHead { head with type := head.type ++ t.content } (i + 1) stop := by
  rw [parameterHead, if_pos hi, ht]
  simp only
  cases t.kind <;> simp [promotes, Kind.isTrivia]

theorem parameterHead_of_trivia (head : ParameterHead) (hi : i < stop)
    (h : ¬ EffectiveAt ts.kinds i) :
    ts.parameterHead head i stop = ts.parameterHead head (i + 1) stop := by
  cases ht : ts.get? i with
  | none => rw [parameterHead, if_pos hi, ht]
  | some t =>
    have htrivia := isTrivia_of_not_effectiveAt h ht
    rw [parameterHead_eq head hi ht]
    revert htrivia
    cases t.kind <;> simp [promotes, Kind.isTrivia]

/-- An equals sign that is the token of code behind the name is one of the three tokens behind it. -/
def DefaultInReach (ts : Tokens) (i : Nat) : Prop :=
  ∀ e, ts.nextEffective i = some e → ts.kindIs (· == .assign) e = true → e ≤ i + 3

instance : Decidable (ts.DefaultInReach i) :=
  decidable_of_iff ((ts.nextEffective i).all fun e => !ts.kindIs (· == .assign) e || e ≤ i + 3)
    (by simp [DefaultInReach, Option.all_eq_true, imp_iff_not_or])

theorem nextEffective_of_findNextEffective {e : Nat}
    (h : ts.findNextEffective (i + 1) (some stop) = some e) : ts.nextEffective i = some e := by
  obtain ⟨he, -, hrank⟩ := rank_of_findNextEffective h
  have hlt := (rank_lt_iff he).2 (lt_size_of_effectiveAt he)
  rw [hrank] at hlt
  obtain ⟨e', he'⟩ := exists_findNextEffective hlt
  obtain ⟨heff, -, hrank'⟩ := rank_of_findNextEffective he'
  rw [nextEffective, findNextEffective_none, he', eq_of_rank_eq heff he (hrank'.trans hrank.symm)]

theorem defaultAfter_of_not_inReach (h : ¬ ts.DefaultInReach i) : ts.defaultAfter i stop = .none := by
  cases hnext : ts.findNextEffective (i + 1) (some stop) with
  | none => simp [defaultAfter, hnext]
  | some e =>
    have hfar : ¬ (decide (e ≤ i + 3) && ts.kindIs (· == .assign) e) = true := by
      rw [Bool.and_eq_true, decide_eq_true_eq]
      rintro ⟨hle, -⟩
      refine h fun e' he' _ => ?_
      cases he'.symm.trans (nextEffective_of_findNextEffective hnext)
      exact hle
    rw [defaultAfter, hnext, Option.filter_some, if_neg hfar]

theorem filter_takeWhile {α : Type} {p q : α → Bool} (h : ∀ x, p x = false → q x = true) (l : List α) :
    (l.takeWhile q).filter p = (l.filter p).takeWhile q := by
  induction l with
  | nil => rfl
  | cons x l ih =>
    cases hp : p x with
    | false => simp [h x hp, hp, ih]
    | true => cases hq : q x <;> simp [hp, hq, ih]

theorem code_drop_rank (ts : Tokens) (i : Nat) :
    ((ts.items.toList.drop i).filter isEffective).map (fun t => (t.kind, t.content)) =
      ts.code.drop (rank ts.kinds i) := by
  have hsplit := congrArg (List.filter isEffective) (List.take_append_drop i ts.items.toList)
  have hrank : rank ts.kinds i = ((ts.items.toList.take i).filter isEffective).length := by
    rw [rank, kinds, ← List.map_take, List.countP_map, List.countP_eq_length_filter]
    rfl
  rw [List.filter_append] at hsplit
  rw [code, ← hsplit, ← List.map_drop, hrank, List.drop_left]

/-- A result type is read off the code behind its colon. -/
theorem resultType?_eq (ts : Tokens) (closer : Nat) :
    ts.resultType? closer = (ts.resultColon? closer).bind fun colon =>
      DeclaredType.ofText? (String.join (((ts.code.drop (rank ts.kinds (colon + 1))).takeWhile
        fun p => !endsResultType p.1).map (·.2))) := by
  have hends : ∀ t : Token, isEffective t = false → (!endsResultType t.kind) = true := by
    intro t
    unfold isEffective
    cases t.kind <;> decide
  have htext : ∀ ls : List Token, ((ls.takeWhile fun t => !endsResultType t.kind).filter
      isEffective).map (·.content) = (((ls.filter isEffective).map fun t => (t.kind, t.content)).takeWhile
        fun p => !endsResultType p.1).map (·.2) := by
    intro ls
    rw [filter_takeWhile hends, List.takeWhile_map, List.map_map]
    rfl
  rw [resultType?, Option.bind_eq_bind]
  refine congrArg _ (funext fun colon => ?_)
  rw [← code_drop_rank, ← htext]
  rfl

end Tokens

/-- Two readers at places of one rank: one of them is at a blank or a comment, or both are at
matched tokens, or both at the end. -/
inductive Abreast (ts us : Tokens) (i j stop stop' : Nat) : Prop
  | left (hi : i < stop) (h : ¬ EffectiveAt ts.kinds i)
  | right (hj : j < stop') (h : ¬ EffectiveAt us.kinds j)
  | both (hi : i < stop) (hj : j < stop') (hij : Matched ts us i j)
  | done (hi : ¬ i < stop) (hj : ¬ j < stop')

section

variable {ts us : Tokens} {i j start start' stop stop' : Nat}

theorem abreast (hij : rank ts.kinds i = rank us.kinds j)
    (hstop : rank ts.kinds stop = rank us.kinds stop') : Abreast ts us i j stop stop' := by
  by_cases hi : i < stop
  · by_cases hti : EffectiveAt ts.kinds i
    · by_cases huj : EffectiveAt us.kinds j
      · have hmatched : Matched ts us i j := ⟨hti, huj, hij⟩
        exact .both hi ((hmatched.lt_iff hstop).1 hi) hmatched
      · have hlt := (rank_lt_iff hti).2 hi
        rw [hij, hstop] at hlt
        exact .right (Nat.not_le.1 fun hle => absurd hlt (Nat.not_lt.2 (rank_mono hle))) huj
    · exact .left hi hti
  · by_cases hj : j < stop'
    · by_cases huj : EffectiveAt us.kinds j
      · have hlt := (rank_lt_iff huj).2 hj
        rw [← hij, ← hstop] at hlt
        exact absurd hlt (Nat.not_lt.2 (rank_mono (Nat.not_lt.1 hi)))
      · exact .right hj huj
    · exact .done hi hj

theorem Matched.rank_behind (hij : Matched ts us i j) {a b : Option Nat}
    (hab : Option.Rel (Matched ts us) a b) :
    rank ts.kinds (max (a.getD i + 1) (i + 1)) = rank us.kinds (max (b.getD j + 1) (j + 1)) := by
  rw [rank_max, rank_max, hij.rank_succ_eq]
  cases hab with
  | none => rw [Option.getD_none, Option.getD_none, hij.rank_succ_eq]
  | some h => rw [Option.getD_some, Option.getD_some, h.rank_succ_eq]

namespace SameCode

theorem splitAtCommas (h : SameCode ts us) (hstart : rank ts.kinds start = rank us.kinds start')
    (hij : rank ts.kinds i = rank us.kinds j) (hstop : rank ts.kinds stop = rank us.kinds stop') :
    List.Forall₂ (fun p q => rank ts.kinds p.1 = rank us.kinds q.1 ∧ rank ts.kinds p.2 = rank us.kinds q.2)
      (ts.splitAtCommas start i stop) (us.splitAtCommas start' j stop') := by
  induction hn : (stop - i) + (stop' - j) using Nat.strongRecOn generalizing start start' i j with | _ n ih
  cases abreast hij hstop with
  | left hi htrivia =>
    rw [Tokens.splitAtCommas_of_trivia hi htrivia]
    exact ih _ (by omega) hstart (by rw [rank_succ_of_trivia htrivia, hij]) rfl
  | right hj htrivia =>
    rw [Tokens.splitAtCommas_of_trivia hj htrivia]
    exact ih _ (by omega) hstart (by rw [rank_succ_of_trivia htrivia, hij]) rfl
  | done hi hj =>
    rw [Tokens.splitAtCommas, if_neg hi, Tokens.splitAtCommas, if_neg hj]
    exact .cons ⟨hstart, hstop⟩ .nil
  | both hi hj hmatched =>
    obtain ⟨t, u, ht, hu, hkind, -, -, hlinks⟩ := h.get? hmatched
    rw [Tokens.splitAtCommas_eq hi ht, Tokens.splitAtCommas_eq hj hu, hkind]
    split
    · exact ih _ (by omega) hstart (hmatched.rank_behind hlinks.bracketCloser) rfl
    split
    · exact .cons ⟨hstart, hij⟩ (ih _ (by omega) hmatched.rank_succ_eq hmatched.rank_succ_eq rfl)
    · exact ih _ (by omega) hstart hmatched.rank_succ_eq rfl

theorem any_nextEffective (h : SameCode ts us) (hij : Matched ts us i j) (p : Kind → Bool) :
    (ts.nextEffective i).any (ts.kindIs p) = (us.nextEffective j).any (us.kindIs p) := by
  have hrel := h.nextEffective hij
  revert hrel
  generalize ts.nextEffective i = a
  generalize us.nextEffective j = b
  intro hrel
  cases hrel with
  | none => rfl
  | some hmatched => exact h.kindIs hmatched p

theorem parameterHead (h : SameCode ts us) (head : Tokens.ParameterHead)
    (hij : rank ts.kinds i = rank us.kinds j) (hstop : rank ts.kinds stop = rank us.kinds stop') :
    Option.Rel (fun a b => a.1 = b.1 ∧ Matched ts us a.2 b.2)
      (ts.parameterHead head i stop) (us.parameterHead head j stop') := by
  induction hn : (stop - i) + (stop' - j) using Nat.strongRecOn generalizing head i j with | _ n ih
  cases abreast hij hstop with
  | left hi htrivia =>
    rw [Tokens.parameterHead_of_trivia head hi htrivia]
    exact ih _ (by omega) head (by rw [rank_succ_of_trivia htrivia, hij]) rfl
  | right hj htrivia =>
    rw [Tokens.parameterHead_of_trivia head hj htrivia]
    exact ih _ (by omega) head (by rw [rank_succ_of_trivia htrivia, hij]) rfl
  | done hi hj =>
    rw [Tokens.parameterHead, if_neg hi, Tokens.parameterHead, if_neg hj]
    exact .none
  | both hi hj hmatched =>
    obtain ⟨t, u, ht, hu, hkind, hcontent, -, hlinks⟩ := h.get? hmatched
    rw [Tokens.parameterHead_eq head hi ht, Tokens.parameterHead_eq head hj hu, hkind, hcontent,
      h.any_nextEffective hmatched]
    have hnext : ∀ head, Option.Rel (fun a b => a.1 = b.1 ∧ Matched ts us a.2 b.2)
        (ts.parameterHead head (i + 1) stop) (us.parameterHead head (j + 1) stop') :=
      fun head => ih _ (by omega) head hmatched.rank_succ_eq rfl
    split
    · exact ih _ (by omega) head (hmatched.rank_behind hlinks.bracketCloser) rfl
    split
    · exact .some ⟨rfl, hmatched⟩
    repeat' split
    all_goals exact hnext _

/-- Defaults are the same if no equals sign is out of reach. -/
theorem defaultAfter (h : SameCode ts us) (hij : Matched ts us i j)
    (hstop : rank ts.kinds stop = rank us.kinds stop') (hi : ts.DefaultInReach i)
    (hj : us.DefaultInReach j) : ts.defaultAfter i stop = us.defaultAfter j stop' := by
  have hkind : ∀ {k l}, Matched ts us k l → ts.kind? k = us.kind? l := by
    intro k l hkl
    obtain ⟨t, u, ht, hu, hkind, -⟩ := h.get? hkl
    simp [Tokens.kind?, ht, hu, hkind]
  have hnext : ∀ {k l}, Matched ts us k l → Option.Rel (Matched ts us)
      (ts.findNextEffective (k + 1) (some stop)) (us.findNextEffective (l + 1) (some stop')) :=
    fun hkl => Matched.findNextEffective hkl.rank_succ_eq hstop
  rw [Tokens.defaultAfter, Tokens.defaultAfter]
  cases hl : ts.findNextEffective (i + 1) (some stop) with
  | none => rw [eq_none_of_rel (hnext hij) hl, Option.filter_none, Option.filter_none]
  | some e =>
    obtain ⟨e', hr, hee⟩ := exists_of_rel (hnext hij) hl
    have hnear := hi e (Tokens.nextEffective_of_findNextEffective hl)
    have hnear' := hj e' (Tokens.nextEffective_of_findNextEffective hr)
    rw [hr, Option.filter_some, Option.filter_some]
    rw [h.kindIs hee] at hnear ⊢
    cases hassign : us.kindIs (· == .assign) e' with
    | false => rw [Bool.and_false, Bool.and_false, if_neg Bool.false_ne_true, if_neg Bool.false_ne_true]
    | true =>
      simp only [hnear hassign, hnear' hassign, decide_true, Bool.true_and, if_true]
      cases hv : ts.findNextEffective (e + 1) (some stop) with
      | none => rw [eq_none_of_rel (hnext hee) hv]
      | some v =>
        obtain ⟨v', hv', hvv⟩ := exists_of_rel (hnext hee) hv
        have hsigned : (ts.findNextEffective (v + 1) (some stop)).bind ts.kind? =
            (us.findNextEffective (v' + 1) (some stop')).bind us.kind? := by
          cases hw : ts.findNextEffective (v + 1) (some stop) with
          | none => rw [eq_none_of_rel (hnext hvv) hw, Option.bind_none, Option.bind_none]
          | some w =>
            obtain ⟨w', hw', hww⟩ := exists_of_rel (hnext hvv) hw
            rw [hw', Option.bind_some, Option.bind_some, hkind hww]
        rw [hv']
        simp only [hkind hvv, h.content hvv, hsigned]

theorem eq_of_rel {α : Type} {a b : Option α} (h : Option.Rel (· = ·) a b) : a = b := by
  cases h with
  | none => rfl
  | some h => rw [h]

theorem functionName? (h : SameCode ts us) (hij : Matched ts us i j) :
    ts.functionName? i = us.functionName? j := by
  refine eq_of_rel (rel_bind (h.nextEffective hij) fun k l hkl => ?_)
  have hname : ∀ m n, Matched ts us m n → Option.Rel (· = ·)
      ((guard (ts.kindIs (· == .name) m = true) : Option Unit).bind fun _ => some (ts.content m))
      ((guard (us.kindIs (· == .name) n = true) : Option Unit).bind fun _ => some (us.content n)) := by
    intro m n hmn
    rw [h.kindIs hmn]
    exact rel_guard Iff.rfl fun _ _ => .some (h.content hmn)
  rw [h.kindIs hkl]
  dsimp only
  split
  · exact rel_bind (h.nextEffective hkl) hname
  · exact hname k l hkl

theorem resultColon? (h : SameCode ts us) (hij : Matched ts us i j) :
    Option.Rel (Matched ts us) (ts.resultColon? i) (us.resultColon? j) := by
  refine rel_bind (h.nextEffective hij) fun k l hkl => ?_
  have hcolon : ∀ m n, Matched ts us m n → Option.Rel (Matched ts us)
      ((guard (ts.kindIs (· == .colon) m = true) : Option Unit).bind fun _ => some m)
      ((guard (us.kindIs (· == .colon) n = true) : Option Unit).bind fun _ => some n) := by
    intro m n hmn
    rw [h.kindIs hmn]
    exact rel_guard Iff.rfl fun _ _ => .some hmn
  rw [h.kindIs hkl]
  dsimp only
  split
  · exact rel_bind (h.nextEffective hkl) fun o p hop => rel_bind (h.links o p hop).bracketCloser
      fun c d hcd => rel_bind (h.nextEffective hcd) hcolon
  · exact hcolon k l hkl

theorem resultType? (h : SameCode ts us) (hij : Matched ts us i j) :
    ts.resultType? i = us.resultType? j := by
  rw [Tokens.resultType?_eq, Tokens.resultType?_eq, h.code_eq]
  refine eq_of_rel (rel_bind (h.resultColon? hij) fun k l hkl => ?_)
  rw [hkl.rank_succ_eq]
  cases DeclaredType.ofText? _ with
  | none => exact .none
  | some t => exact .some rfl

end SameCode

/-! ### Declarations -/

/-- The defaults `d` and `d'` of the variables at `i` and `j`: the same, but for an equals sign that
is out of reach, with which there is none. -/
structure DefaultsAgree (ts us : Tokens) (i j : Nat) (d d' : DefaultValue) : Prop where
  eq : ts.DefaultInReach i → us.DefaultInReach j → d = d'
  left : ¬ ts.DefaultInReach i → d = .none
  right : ¬ us.DefaultInReach j → d' = .none

/-- Parameters that are the same but for where they stand, and for a default out of reach. -/
structure Parameter.Agree (ts us : Tokens) (p q : Parameter) : Prop where
  matched : Matched ts us p.nameIndex q.nameIndex
  name : p.name = q.name
  type : p.type = q.type
  variadic : p.variadic = q.variadic
  byReference : p.byReference = q.byReference
  promoted : p.promoted = q.promoted
  default : DefaultsAgree ts us p.nameIndex q.nameIndex p.default q.default

structure Signature.Agree (ts us : Tokens) (s s' : Signature) : Prop where
  name : s.name = s'.name
  parameters : List.Forall₂ (Parameter.Agree ts us) s.parameters s'.parameters
  result : s.result = s'.result
  hasBody : s.hasBody = s'.hasBody

/-- Properties declared by the variables at `i` and `j` that are the same but for a default out of
reach. -/
structure Property.Agree (ts us : Tokens) (i j : Nat) (p q : Property) : Prop where
  name : p.name = q.name
  type : p.type = q.type
  isStatic : p.isStatic = q.isStatic
  default : DefaultsAgree ts us i j p.default q.default

namespace SameCode

theorem defaultsAgree (h : SameCode ts us) (hij : Matched ts us i j)
    (hstop : rank ts.kinds stop = rank us.kinds stop') :
    DefaultsAgree ts us i j (ts.defaultAfter i stop) (us.defaultAfter j stop') where
  eq := h.defaultAfter hij hstop
  left := Tokens.defaultAfter_of_not_inReach
  right := Tokens.defaultAfter_of_not_inReach

theorem parameter? (h : SameCode ts us) (hstart : rank ts.kinds start = rank us.kinds start')
    (hstop : rank ts.kinds stop = rank us.kinds stop') :
    Option.Rel (Parameter.Agree ts us) (ts.parameter? start stop) (us.parameter? start' stop') := by
  refine rel_bind (h.parameterHead {} hstart hstop) ?_
  rintro ⟨head, i⟩ ⟨head', j⟩ ⟨heq, hij⟩
  obtain rfl : head = head' := heq
  exact .some ⟨hij, h.content hij, rfl, rfl, rfl, rfl, h.defaultsAgree hij hstop⟩

theorem parameters (h : SameCode ts us) (hij : Matched ts us i j) :
    List.Forall₂ (Parameter.Agree ts us) (ts.parameters i) (us.parameters j) := by
  have hlinks := h.links i j hij
  rw [Tokens.parameters, Tokens.parameters]
  cases ho : (ts.links i).parenOpener with
  | none =>
    rw [eq_none_of_rel hlinks.parenOpener ho]
    exact .nil
  | some o =>
    obtain ⟨o', ho', hoo⟩ := exists_of_rel hlinks.parenOpener ho
    cases hc : (ts.links i).parenCloser with
    | none =>
      rw [ho', eq_none_of_rel hlinks.parenCloser hc]
      exact .nil
    | some c =>
      obtain ⟨c', hc', hcc⟩ := exists_of_rel hlinks.parenCloser hc
      rw [ho', hc']
      exact List.rel_filterMap (fun p q hpq => h.parameter? hpq.1 hpq.2)
        (h.splitAtCommas hoo.rank_succ_eq hoo.rank_succ_eq hcc.rank_eq)

theorem signature? (h : SameCode ts us) (hij : Matched ts us i j) :
    Option.Rel (Signature.Agree ts us) (ts.signature? i) (us.signature? j) := by
  obtain ⟨t, u, ht, hu, hkind, -, -, hlinks⟩ := h.get? hij
  rw [Tokens.signature?, Tokens.signature?, ht, hu]
  refine rel_guard (by rw [hkind]) fun _ _ => .some ⟨h.functionName? hij, h.parameters hij, ?_, ?_⟩
  · refine eq_of_rel (rel_bind hlinks.parenCloser fun c d hcd => ?_)
    rw [h.resultType? hcd]
    cases us.resultType? d with
    | none => exact .none
    | some t => exact .some rfl
  · have hscope := hlinks.scopeOpener
    simp only [hkind]
    cases hs : t.links.scopeOpener with
    | none => rw [eq_none_of_rel hscope hs]
    | some s =>
      obtain ⟨s', hs', -⟩ := exists_of_rel hscope hs
      rw [hs']
      rfl

theorem enclosingOwner (h : SameCode ts us) (hij : Matched ts us i j) :
    Option.Rel (Matched ts us) (ts.enclosingOwner i) (us.enclosingOwner j) := by
  have hlast : ∀ (vs : Tokens) (k : Nat), vs.enclosingOwner k = (vs.lastBefore (fun t =>
      t.kind == .openBrace && t.links.scopeOwner.isSome && t.links.scopeCloser.any (k < ·)) k).bind
        fun o => (vs.links o).scopeOwner := by
    intro vs k
    rw [Tokens.enclosingOwner, Tokens.lastBefore]
    rcases Nat.eq_zero_or_pos k with rfl | hk
    · rfl
    · simp [guard, hk, Nat.ne_of_gt hk]
  have hbrace : ∀ {t : Token} {b c : Bool}, (t.kind == .openBrace && b && c) = true →
      t.kind.isEffective = true := by
    intro t b c ht
    simp only [Bool.and_eq_true, beq_iff_eq] at ht
    rw [ht.1.1]
    rfl
  rw [hlast, hlast]
  refine rel_bind (h.lastBefore hij (fun _ => hbrace) (fun _ => hbrace) fun k l hkl => ?_)
    fun o p hop => (h.links o p hop).scopeOwner
  obtain ⟨t, u, ht, hu, hkind, -, -, hlinks⟩ := h.get? hkl
  have hcloser : t.links.scopeCloser.any (i < ·) = u.links.scopeCloser.any (j < ·) := by
    cases hc : t.links.scopeCloser with
    | none => rw [eq_none_of_rel hlinks.scopeCloser hc, Option.any_none, Option.any_none]
    | some c =>
      obtain ⟨c', hc', hcc⟩ := exists_of_rel hlinks.scopeCloser hc
      rw [hc', Option.any_some, Option.any_some, decide_eq_decide]
      exact hij.lt_iff hcc.rank_eq
  have howner : t.links.scopeOwner.isSome = u.links.scopeOwner.isSome := by
    cases ho : t.links.scopeOwner with
    | none => rw [eq_none_of_rel hlinks.scopeOwner ho]
    | some o =>
      obtain ⟨o', ho', -⟩ := exists_of_rel hlinks.scopeOwner ho
      rw [ho']
      rfl
  rw [ht, hu, Option.any_some, Option.any_some, hkind, hcloser, howner]

theorem propertyHead (h : SameCode ts us) (head : Tokens.PropertyHead) (hij : Matched ts us i j) :
    ts.propertyHead head i = us.propertyHead head j := by
  induction i using Nat.strongRecOn generalizing head j with | _ i ih
  rw [Tokens.propertyHead, Tokens.propertyHead]
  cases hp : ts.previousEffective i with
  | none => rw [eq_none_of_rel (h.previousEffective hij) hp]
  | some p =>
    obtain ⟨q, hq, hpq⟩ := exists_of_rel (h.previousEffective hij) hp
    obtain ⟨t, u, ht, hu, hkind, hcontent, -⟩ := h.get? hpq
    have hpi := (Tokens.lastBefore_eq_some hp).1
    have hqj := (Tokens.lastBefore_eq_some hq).1
    rw [hq]
    simp only [hpi, hqj, if_true, ht, hu, hkind, hcontent]
    repeat' split
    · exact ih p hpi _ hpq
    · exact ih p hpi _ hpq
    · rfl

theorem property? (h : SameCode ts us) (hij : Matched ts us i j) :
    Option.Rel (Property.Agree ts us i j) (ts.property? i) (us.property? j) := by
  rw [Tokens.property?, Tokens.property?, h.kindIs hij]
  refine rel_guard Iff.rfl fun _ _ => rel_bind (h.enclosingOwner hij) fun k l hkl => ?_
  rw [h.kindIs hkl]
  refine rel_guard Iff.rfl fun _ _ => ?_
  rw [h.propertyHead {} hij]
  refine rel_guard Iff.rfl fun _ _ => .some ?_
  exact ⟨h.content hij, rfl, rfl, h.defaultsAgree hij h.rank_size⟩

/-- Two sources with the same code declare the same: on matched tokens the signatures of functions
and the declarations of properties agree, however many blanks and comments stand in between. -/
theorem declarations_agree (h : SameCode ts us) (hij : Matched ts us i j) :
    Option.Rel (Signature.Agree ts us) (ts.signature? i) (us.signature? j) ∧
      Option.Rel (Property.Agree ts us i j) (ts.property? i) (us.property? j) :=
  ⟨h.signature? hij, h.property? hij⟩

end SameCode

end

namespace Tokens

/-- An arrow function with a comment behind a type and a line break before a default. -/
theorem spread_declaration_agrees :
    let ts := ofSource "<?php fn(?A $a = 1) => 2;"
    let us := ofSource "<?php fn(?A /* id */ $a\n= 1)=>2;"
    SameCode ts us ∧ Matched ts us 2 2 ∧
      Option.Rel (Signature.Agree ts us) (ts.signature? 2) (us.signature? 2) ∧
        Option.Rel (Property.Agree ts us 2 2) (ts.property? 2) (us.property? 2) := by
  intro ts us
  have hcode : SameCode ts us := .of_bounded (by decide +kernel) (by decide +kernel)
  have hmatched : Matched ts us 2 2 := by decide +kernel
  exact ⟨hcode, hmatched, hcode.declarations_agree hmatched⟩

/-- A comment behind the name of a parameter hides its default. -/
theorem default_hidden_by_comment :
    let ts := ofSource "<?php function f($a = 1) {}"
    let us := ofSource "<?php function f($a /* id */ = 1) {}"
    SameCode ts us ∧ Matched ts us 2 2 ∧ (ts.parameters 2).map (·.default) = [.int] ∧
      (us.parameters 2).map (·.default) = [.none] := by
  intro ts us
  exact ⟨.of_bounded (by decide +kernel) (by decide +kernel), by decide +kernel, by decide +kernel,
    by decide +kernel⟩

end Tokens

end PhpStyle
