import PhpStyle.Proofs.CheckedStructure
import PhpStyle.Proofs.MatchedSignatures

/-!
# Signatures with reads that may fault

The readers of signatures and of property declarations, told as loops over indices. They jump behind
closing brackets and read up to the closing parenthesis that a keyword is tied to. Where links lead to
tokens in order (`Tokens.LinkTargets`), the jumps go forwards and stay below that parenthesis, so that
every reader ends without a fault and gives the answer of its total form (`signature?_eq`,
`property?_eq`).
-/

namespace PhpStyle.Checked

open Text Tokens

variable (ts : Tokens)

noncomputable section

/-- Splits the tokens from `i` up to `stop` at the commas outside brackets; `start` is where the
current piece begins, behind `pieces`. -/
def splitAtCommas (pieces : List (Nat × Nat)) (start i stop : Nat) : Checked (List (Nat × Nat)) :=
  loop (fun (pieces, start, i) => do
    if i < stop then
      let t ← token ts i
      if t.kind.isOpener then return .again (pieces, start, t.links.bracketCloser.getD i + 1)
      else if t.kind = .comma then return .again (pieces ++ [(start, i)], i + 1, i + 1)
      else return .again (pieces, start, i + 1)
    else return .stop (pieces ++ [(start, stop)])) (pieces, start, i)

/-- Whether a token of kind `k` at `i` marks a parameter as passed by reference. -/
def marksReference (k : Kind) (i : Nat) : Checked Bool :=
  if k = .bitwiseAnd then do
    let next ← nextEffective ts i
    testKind ts (fun k => k == .variableName || k == .ellipsis) next
  else return false

/-- Reads the tokens of a parameter from `i` up to its variable. -/
def parameterHead (head : ParameterHead) (i stop : Nat) :
    Checked (Option (ParameterHead × Nat)) :=
  loop (fun (head, i) => do
    if i < stop then
      let t ← token ts i
      if t.kind = .openAttribute then return .again (head, t.links.bracketCloser.getD i + 1)
      else if t.kind = .variableName then return .stop (some (head, i))
      else if t.kind = .ellipsis then return .again ({ head with variadic := true }, i + 1)
      else if promotes t.kind then return .again ({ head with promoted := true }, i + 1)
      else if ← marksReference ts t.kind i then
        return .again ({ head with byReference := true }, i + 1)
      else if t.kind.isTrivia then return .again (head, i + 1)
      else return .again ({ head with type := head.type ++ t.content }, i + 1)
    else return .stop none) (head, i)

/-- The kind of number from `i` up to `stop`, behind a sign. -/
def signedValue (i stop : Nat) : Checked DefaultValue := do
  match ← findNextEffective ts i (some stop) with
  | none => return .expression
  | some n =>
    match (← token ts n).kind with
    | .integer => return .int
    | .float => return .float
    | _ => return .expression

/-- The value from `i` up to `stop`, behind the equals sign. -/
def defaultValue (i stop : Nat) : Checked DefaultValue := do
  match ← findNextEffective ts i (some stop) with
  | none => return .expression
  | some v =>
    let t ← token ts v
    match t.kind with
    | .quoted => return .string
    | .openArray | .kwArray => return .array
    | .integer => return .int
    | .float => return .float
    | .litTrue | .litFalse => return .bool
    | .litNull => return .null
    | .operator =>
      if t.content = "-" || t.content = "+" then signedValue ts (v + 1) stop else return .expression
    | _ => return .expression

def defaultAfter (name stop : Nat) : Checked DefaultValue := do
  match ← findNextEffective ts (name + 1) (some stop) with
  | none => return .none
  | some e =>
    if e ≤ name + 3 then
      if (← token ts e).kind = .assign then defaultValue ts (e + 1) stop else return .none
    else return .none

def parameter? (start stop : Nat) : Checked (Option Parameter) := do
  match ← parameterHead ts {} start stop with
  | none => return none
  | some (head, name) =>
    let default ← defaultAfter ts name stop
    let t ← token ts name
    return some {
      nameIndex := name
      name := t.content
      type := DeclaredType.ofText? head.type
      default := default
      variadic := head.variadic
      byReference := head.byReference
      promoted := head.promoted }

def parameters (i : Nat) : Checked (List Parameter) := do
  match ts.get? i with
  | none => return []
  | some t =>
    match t.links.parenOpener, t.links.parenCloser with
    | some o, some c =>
      let pieces ← splitAtCommas ts [] (o + 1) (o + 1) c
      let found ← pieces.mapM fun p => parameter? ts p.1 p.2
      return found.filterMap id
    | _, _ => return []

/-- The token at `n`, or the one after it if it is a reference mark. -/
def behindMark (n : Nat) : Checked (Option Nat) := do
  let t ← token ts n
  if t.kind = .bitwiseAnd then nextEffective ts n else return some n

def nameAt? (i : Nat) : Checked (Option String) := do
  let t ← token ts i
  return if t.kind = .name then some t.content else none

def functionName? (i : Nat) : Checked (Option String) := do
  match ← nextEffective ts i with
  | none => return none
  | some n =>
    match ← behindMark ts n with
    | none => return none
    | some m => nameAt? ts m

def colonAt? (colon : Nat) : Checked (Option Nat) := do
  return if (← token ts colon).kind = .colon then some colon else none

def resultColon? (closer : Nat) : Checked (Option Nat) := do
  match ← nextEffective ts closer with
  | none => return none
  | some next =>
    if (← token ts next).kind = .kwUse then
      match ← nextEffective ts next with
      | none => return none
      | some o =>
        match (← token ts o).links.bracketCloser with
        | none => return none
        | some c =>
          match ← nextEffective ts c with
          | none => return none
          | some colon => colonAt? ts colon
    else colonAt? ts next

/-- Reads the tokens of a result type from `i` on, behind `text`. -/
def resultText (text : String) (i : Nat) : Checked String :=
  loop (fun (text, i) => do
    if i < ts.size then
      let t ← token ts i
      if endsResultType t.kind then return .stop text
      else return .again (if t.kind.isEffective then text ++ t.content else text, i + 1)
    else return .stop text) (text, i)

def resultType? (closer : Nat) : Checked (Option DeclaredType) := do
  match ← resultColon? ts closer with
  | none => return none
  | some colon => return DeclaredType.ofText? (← resultText ts "" (colon + 1))

def resultBehind? : Option Nat → Checked (Option DeclaredType)
  | some closer => resultType? ts closer
  | none => return none

def signature? (i : Nat) : Checked (Option Signature) := do
  match ts.get? i with
  | none => return none
  | some t =>
    if t.kind = .kwFunction ∨ t.kind = .kwFn then
      let name ← functionName? ts i
      let result ← resultBehind? ts t.links.parenCloser
      let parameters ← parameters ts i
      return some {
        name := name
        parameters := parameters
        result := result
        hasBody := t.links.scopeOpener.isSome || t.kind = .kwFn }
    else return none

/-- Reads backwards from `i`: first the type, then the modifiers. -/
def propertyHead (head : PropertyHead) (i : Nat) : Checked PropertyHead :=
  loop (fun (head, i) => do
    match ← previousEffective ts i with
    | none => return .stop head
    | some p =>
      let t ← token ts p
      if t.kind.isModifier then
        return .again ({ head with
          hasModifier := true, isStatic := head.isStatic || t.kind == .kwStatic }, p)
      else if !head.hasModifier && isPropertyTypePart t.kind then
        return .again ({ head with type := t.content ++ head.type }, p)
      else return .stop head) (head, i)

def property? (i : Nat) : Checked (Option Property) := do
  match ts.get? i with
  | none => return none
  | some t =>
    if t.kind = .variableName then
      match ← enclosingOwner ts i with
      | none => return none
      | some owner =>
        if ownsProperties (← token ts owner).kind then
          let head ← propertyHead ts {} i
          if head.hasModifier then
            let default ← defaultAfter ts i ts.size
            return some {
              name := t.content
              type := DeclaredType.ofText? head.type
              default := default
              isStatic := head.isStatic }
          else return none
        else return none
    else return none

end

theorem splitAtCommas_turn (pieces : List (Nat × Nat)) (start i stop : Nat) :
    splitAtCommas ts pieces start i stop = (do
      if i < stop then
        let t ← token ts i
        if t.kind.isOpener then splitAtCommas ts pieces start (t.links.bracketCloser.getD i + 1) stop
        else if t.kind = .comma then splitAtCommas ts (pieces ++ [(start, i)]) (i + 1) (i + 1) stop
        else splitAtCommas ts pieces start (i + 1) stop
      else return pieces ++ [(start, stop)]) := by
  rw [splitAtCommas, loop_eq]
  simp only
  split
  · rw [bind_assoc]
    refine bind_congr fun t => ?_
    split
    · rfl
    split <;> rfl
  · rfl

theorem parameterHead_turn (head : ParameterHead) (i stop : Nat) : parameterHead ts head i stop = (do
    if i < stop then
      let t ← token ts i
      if t.kind = .openAttribute then
        parameterHead ts head (t.links.bracketCloser.getD i + 1) stop
      else if t.kind = .variableName then return some (head, i)
      else if t.kind = .ellipsis then parameterHead ts { head with variadic := true } (i + 1) stop
      else if promotes t.kind then parameterHead ts { head with promoted := true } (i + 1) stop
      else if ← marksReference ts t.kind i then
        parameterHead ts { head with byReference := true } (i + 1) stop
      else if t.kind.isTrivia then parameterHead ts head (i + 1) stop
      else parameterHead ts { head with type := head.type ++ t.content } (i + 1) stop
    else return none) := by
  rw [parameterHead, loop_eq]
  simp only
  split
  · rw [bind_assoc]
    refine bind_congr fun t => ?_
    split
    · rfl
    split
    · rfl
    split
    · rfl
    split
    · rfl
    rw [bind_assoc]
    refine bind_congr fun marks => ?_
    split
    · rfl
    split <;> rfl
  · rfl

theorem resultText_turn (text : String) (i : Nat) : resultText ts text i = (do
    if i < ts.size then
      let t ← token ts i
      if endsResultType t.kind then return text
      else resultText ts (if t.kind.isEffective then text ++ t.content else text) (i + 1)
    else return text) := by
  rw [resultText, loop_eq]
  simp only
  split
  · rw [bind_assoc]
    refine bind_congr fun t => ?_
    split <;> rfl
  · rfl

theorem propertyHead_turn (head : PropertyHead) (i : Nat) : propertyHead ts head i = (do
    match ← previousEffective ts i with
    | none => return head
    | some p =>
      let t ← token ts p
      if t.kind.isModifier then
        propertyHead ts { head with
          hasModifier := true, isStatic := head.isStatic || t.kind == .kwStatic } p
      else if !head.hasModifier && isPropertyTypePart t.kind then
        propertyHead ts { head with type := t.content ++ head.type } p
      else return head) := by
  rw [propertyHead, loop_eq]
  simp only [bind_assoc]
  refine bind_congr fun p? => ?_
  cases p? with
  | none => rfl
  | some p =>
    simp only [bind_assoc]
    refine bind_congr fun t => ?_
    split
    · rfl
    split <;> rfl

/-! ### Answers for parameters -/

variable {ts : Tokens} {i start stop : Nat}

theorem le_closer (hts : ts.LinkTargets) {t : Token} (ht : ts.get? i = some t)
    (hopener : t.kind.isOpener = true) : i ≤ t.links.bracketCloser.getD i := by
  cases hc : t.links.bracketCloser with
  | none => exact Nat.le_refl i
  | some c =>
    have hk : ts.kind? i = some t.kind := by rw [kind?, ht]; rfl
    rw [links_of_get? ht] at hc
    exact (hts.bracketCloser i t.kind c hk hopener hc).le

theorem splitAtCommas_eq (hts : ts.LinkTargets) (hstop : stop ≤ ts.size) (pieces : List (Nat × Nat)) :
    splitAtCommas ts pieces start i stop = pure (pieces ++ ts.splitAtCommas start i stop) := by
  generalize hn : stop - i = n
  induction n using Nat.strong_induction_on generalizing i start pieces with
  | _ n ih =>
    rw [splitAtCommas_turn]
    split
    · rename_i hi
      obtain ⟨t, ht⟩ := exists_get? (hi.trans_le hstop)
      rw [token_eq ht, pure_bind, Tokens.splitAtCommas_eq hi ht]
      split
      · rename_i hopener
        have hle := le_closer hts ht hopener
        rw [Nat.max_eq_left (Nat.succ_le_succ hle)]
        exact ih _ (by omega) _ rfl
      split
      · rw [ih _ (by omega) _ rfl, List.append_assoc, List.singleton_append]
      · exact ih _ (by omega) _ rfl
    · rename_i hi
      rw [Tokens.splitAtCommas, if_neg hi]

theorem snd_le_of_mem_splitAtCommas {p : Nat × Nat} (h : p ∈ ts.splitAtCommas start i stop) :
    p.2 ≤ stop := by
  fun_induction ts.splitAtCommas start i stop with
  | case1 start i hi ht ih => exact ih h
  | case2 start i hi t ht hopener ih => exact ih h
  | case3 start i hi t ht hopener hcomma ih =>
    rcases List.mem_cons.1 h with rfl | h
    · exact hi.le
    · exact ih h
  | case4 start i hi t ht hopener hcomma ih => exact ih h
  | case5 start i hi =>
    obtain rfl := List.mem_singleton.1 h
    exact Nat.le_refl stop

theorem marksReference_eq (k : Kind) (i : Nat) : marksReference ts k i =
    pure (decide (k = .bitwiseAnd ∧ (ts.nextEffective i).any
      (ts.kindIs fun k => k == .variableName || k == .ellipsis) = true)) := by
  have hnext : ∀ j ∈ ts.nextEffective i, j < ts.size := fun j hj => lt_size_of_findNext hj
  rw [marksReference, nextEffective_eq, pure_bind, testKind_eq hnext]
  by_cases hk : k = .bitwiseAnd
  · simp [hk]
  · simp [hk]

theorem parameterHead_eq (hts : ts.LinkTargets) (hstop : stop ≤ ts.size) (head : ParameterHead) :
    parameterHead ts head i stop = pure (ts.parameterHead head i stop) := by
  generalize hn : stop - i = n
  induction n using Nat.strong_induction_on generalizing i head with
  | _ n ih =>
    rw [parameterHead_turn]
    split
    · rename_i hi
      obtain ⟨t, ht⟩ := exists_get? (hi.trans_le hstop)
      rw [token_eq ht, pure_bind, Tokens.parameterHead_eq head hi ht]
      split
      · rename_i hkind
        have hle := le_closer hts ht (by rw [hkind]; rfl)
        rw [Nat.max_eq_left (Nat.succ_le_succ hle)]
        exact ih _ (by omega) _ rfl
      split
      · rfl
      split
      · exact ih _ (by omega) _ rfl
      split
      · exact ih _ (by omega) _ rfl
      rw [marksReference_eq, pure_bind]
      simp only [decide_eq_true_eq]
      split
      · exact ih _ (by omega) _ rfl
      split
      · exact ih _ (by omega) _ rfl
      · exact ih _ (by omega) _ rfl
    · rename_i hi
      rw [Tokens.parameterHead, if_neg hi]

theorem signedValue_eq (i stop : Nat) : signedValue ts i stop =
    pure (match (ts.findNextEffective i (some stop)).bind ts.kind? with
      | some .integer => .int
      | some .float => .float
      | _ => .expression) := by
  rw [signedValue, findNextEffective_eq, pure_bind]
  cases hn : ts.findNextEffective i (some stop) with
  | none => rfl
  | some n =>
    obtain ⟨t, ht⟩ := exists_get? (lt_size_of_findNext hn)
    have hk : ts.kind? n = some t.kind := by rw [kind?, ht]; rfl
    simp only [token_eq ht, pure_bind, Option.bind_some, hk]
    cases t.kind <;> rfl

theorem defaultAfter_eq (name stop : Nat) :
    defaultAfter ts name stop = pure (ts.defaultAfter name stop) := by
  rw [defaultAfter, findNextEffective_eq, pure_bind, Tokens.defaultAfter]
  cases he : ts.findNextEffective (name + 1) (some stop) with
  | none => rfl
  | some e =>
    obtain ⟨u, hu⟩ := exists_get? (lt_size_of_findNext he)
    have hassign : ts.kindIs (· == .assign) e = (u.kind == .assign) := by rw [kindIs, kind?, hu]; rfl
    simp only [token_eq hu, pure_bind, Option.filter_some, hassign]
    by_cases hnear : e ≤ name + 3
    · by_cases hkind : u.kind = .assign
      · rw [defaultValue, findNextEffective_eq, pure_bind]
        simp only [hnear, hkind, if_true, decide_true, beq_self_eq_true, Bool.and_self]
        cases hv : ts.findNextEffective (e + 1) (some stop) with
        | none => rfl
        | some v =>
          obtain ⟨t, ht⟩ := exists_get? (lt_size_of_findNext hv)
          have hk : ts.kind? v = some t.kind := by rw [kind?, ht]; rfl
          simp only [token_eq ht, pure_bind, hk, signedValue_eq, content_of_get? ht]
          cases t.kind
          case operator =>
            simp only
            split
            · rfl
            · rfl
          all_goals rfl
      · simp [hnear, hkind]
    · simp [hnear]

theorem lt_of_parameterHead {head head' : ParameterHead} {name : Nat}
    (h : ts.parameterHead head i stop = some (head', name)) : name < stop := by
  fun_induction ts.parameterHead head i stop
  case case3 head i hi t ht hkind =>
    cases h
    exact hi
  case case12 => cases h
  -- every other step goes on
  all_goals
    rename_i ih
    exact ih h

theorem parameter?_eq (hts : ts.LinkTargets) (hstop : stop ≤ ts.size) :
    parameter? ts start stop = pure (ts.parameter? start stop) := by
  rw [parameter?, parameterHead_eq hts hstop, pure_bind, Tokens.parameter?]
  cases hhead : ts.parameterHead {} start stop with
  | none => rfl
  | some found =>
    obtain ⟨head, name⟩ := found
    obtain ⟨t, ht⟩ := exists_get? ((lt_of_parameterHead hhead).trans_le hstop)
    simp only [defaultAfter_eq, token_eq ht, pure_bind, content_of_get? ht]
    rfl

theorem parameters_eq (hts : ts.LinkTargets) (i : Nat) :
    parameters ts i = pure (ts.parameters i) := by
  rw [parameters, Tokens.parameters, links]
  cases ht : ts.get? i with
  | none => rfl
  | some t =>
    simp only [Option.map_some, Option.getD_some]
    cases ho : t.links.parenOpener with
    | none => rfl
    | some o =>
      cases hc : t.links.parenCloser with
      | none => rfl
      | some c =>
        have hparens : (ts.links i).parens = (some o, some c) := by
          rw [← links_of_get? ht, Links.parens, ho, hc]
        have hsize : c ≤ ts.size := (hts.parens i o c hparens).2.le
        have hpieces : ((ts.splitAtCommas (o + 1) (o + 1) c).mapM fun p => parameter? ts p.1 p.2) =
            pure ((ts.splitAtCommas (o + 1) (o + 1) c).map fun p => ts.parameter? p.1 p.2) :=
          mapM_eq fun p hp => parameter?_eq hts ((snd_le_of_mem_splitAtCommas hp).trans hsize)
        simp only [splitAtCommas_eq hts hsize, List.nil_append, pure_bind, hpieces, List.filterMap_map]
        rfl

theorem behindMark_eq {n : Nat} (hn : n < ts.size) : behindMark ts n =
    pure (if ts.kindIs (· == .bitwiseAnd) n then ts.nextEffective n else some n) := by
  obtain ⟨t, ht⟩ := exists_get? hn
  have hmark : ts.kindIs (· == .bitwiseAnd) n = (t.kind == .bitwiseAnd) := by rw [kindIs, kind?, ht]; rfl
  rw [behindMark, token_eq ht, pure_bind, nextEffective_eq, hmark]
  by_cases hkind : t.kind = .bitwiseAnd <;> simp [hkind]

theorem nameAt?_eq (hi : i < ts.size) : nameAt? ts i =
    pure (if ts.kindIs (· == .name) i then some (ts.content i) else none) := by
  obtain ⟨t, ht⟩ := exists_get? hi
  have hname : ts.kindIs (· == .name) i = (t.kind == .name) := by rw [kindIs, kind?, ht]; rfl
  rw [nameAt?, token_eq ht, pure_bind, hname, content_of_get? ht]
  by_cases hkind : t.kind = .name <;> simp [hkind]

theorem functionName?_eq (i : Nat) : functionName? ts i = pure (ts.functionName? i) := by
  rw [functionName?, nextEffective_eq, pure_bind, Tokens.functionName?]
  cases hn : ts.nextEffective i with
  | none => rfl
  | some n =>
    have hsize := lt_size_of_findNext hn
    simp only [behindMark_eq hsize, pure_bind, Option.bind_eq_bind, Option.bind_some]
    by_cases hmark : ts.kindIs (· == .bitwiseAnd) n = true
    · simp only [hmark, if_true]
      cases hm : ts.nextEffective n with
      | none => rfl
      | some m =>
        simp only [nameAt?_eq (lt_size_of_findNext hm), Option.bind_some, guard]
        split <;> rfl
    · simp only [hmark, Bool.false_eq_true, if_false, nameAt?_eq hsize, guard]
      split <;> rfl

theorem colonAt?_eq {colon : Nat} (h : colon < ts.size) : colonAt? ts colon =
    pure (if ts.kindIs (· == .colon) colon then some colon else none) := by
  obtain ⟨t, ht⟩ := exists_get? h
  have hcolon : ts.kindIs (· == .colon) colon = (t.kind == .colon) := by rw [kindIs, kind?, ht]; rfl
  rw [colonAt?, token_eq ht, pure_bind, hcolon]
  by_cases hkind : t.kind = .colon <;> simp [hkind]

theorem resultColon?_eq (closer : Nat) : resultColon? ts closer = pure (ts.resultColon? closer) := by
  rw [resultColon?, nextEffective_eq, pure_bind, Tokens.resultColon?]
  cases hn : ts.nextEffective closer with
  | none => rfl
  | some next =>
    have hnext := lt_size_of_findNext hn
    obtain ⟨t, ht⟩ := exists_get? hnext
    have huse : ts.kindIs (· == .kwUse) next = (t.kind == .kwUse) := by rw [kindIs, kind?, ht]; rfl
    simp only [token_eq ht, pure_bind, huse, Option.bind_eq_bind, Option.bind_some]
    by_cases hkind : t.kind = .kwUse
    · simp only [hkind, if_true, nextEffective_eq, pure_bind, beq_self_eq_true]
      cases ho : ts.nextEffective next with
      | none => rfl
      | some o =>
        obtain ⟨u, hu⟩ := exists_get? (lt_size_of_findNext ho)
        simp only [token_eq hu, pure_bind, links_of_get? hu, Option.bind_some]
        cases hc : (ts.links o).bracketCloser with
        | none => rfl
        | some c =>
          simp only [Option.bind_some]
          cases hcolon : ts.nextEffective c with
          | none => rfl
          | some colon =>
            simp only [colonAt?_eq (lt_size_of_findNext hcolon), Option.bind_some, guard]
            split <;> rfl
    · have hother : (t.kind == .kwUse) = false := by simpa using hkind
      simp only [hkind, hother, Bool.false_eq_true, if_false, colonAt?_eq hnext, guard]
      split <;> rfl

theorem resultText_eq (text : String) (i : Nat) : resultText ts text i =
    pure (text ++ String.join ((((ts.items.toList.drop i).takeWhile fun t =>
      !endsResultType t.kind).filter fun t => t.kind.isEffective).map (·.content))) := by
  generalize hn : ts.size - i = n
  induction n generalizing text i with
  | zero =>
    have hdrop : ts.items.toList.drop i = [] :=
      List.drop_eq_nil_of_le (by rw [Array.length_toList]; exact Nat.sub_eq_zero_iff_le.1 hn)
    rw [resultText_turn, if_neg (by omega), hdrop]
    exact congrArg pure (String.append_empty).symm
  | succ n ih =>
    obtain ⟨t, ht⟩ := exists_get? (show i < ts.size by omega)
    have hdrop : ts.items.toList.drop i = t :: ts.items.toList.drop (i + 1) := by
      obtain ⟨hlt, hget⟩ := Array.getElem?_eq_some_iff.1 ht
      rw [List.drop_eq_getElem_cons (by rwa [Array.length_toList]), Array.getElem_toList, hget]
    rw [resultText_turn, if_pos (by omega), token_eq ht, pure_bind, hdrop, List.takeWhile_cons]
    by_cases hends : endsResultType t.kind = true
    · simp [hends]
    rw [if_neg hends, ih _ (i + 1) (by omega)]
    by_cases heffective : t.kind.isEffective = true
    · simp [hends, heffective, String.join_cons, String.append_assoc]
    · simp [hends, heffective]

theorem resultType?_eq (closer : Nat) : resultType? ts closer = pure (ts.resultType? closer) := by
  rw [resultType?, resultColon?_eq, pure_bind, Tokens.resultType?]
  cases ts.resultColon? closer with
  | none => rfl
  | some colon =>
    simp only [resultText_eq, pure_bind, String.empty_append]
    rfl

theorem resultBehind?_eq (closer : Option Nat) :
    resultBehind? ts closer = pure (closer.bind ts.resultType?) := by
  cases closer with
  | none => rfl
  | some c => exact resultType?_eq c

theorem signature?_eq (hts : ts.LinkTargets) (i : Nat) : signature? ts i = pure (ts.signature? i) := by
  rw [signature?, Tokens.signature?]
  cases ht : ts.get? i with
  | none => rfl
  | some t =>
    simp only [functionName?_eq, parameters_eq hts, resultBehind?_eq, pure_bind]
    by_cases hkind : t.kind = .kwFunction ∨ t.kind = .kwFn
    · simp [hkind, guard]
    · simp [hkind, guard]

theorem propertyHead_eq (head : PropertyHead) (i : Nat) :
    propertyHead ts head i = pure (ts.propertyHead head i) := by
  induction i using Nat.strong_induction_on generalizing head with
  | _ i ih =>
    rw [propertyHead_turn, previousEffective_eq, pure_bind, Tokens.propertyHead]
    cases hp : ts.previousEffective i with
    | none => rfl
    | some p =>
      obtain ⟨-, hlt, -⟩ := gap_of_previousEffective hp
      obtain ⟨t, ht⟩ := exists_get? (lt_size_of_previousEffective hp)
      simp only [token_eq ht, pure_bind, hlt, if_true, ht, ih p hlt]
      split
      · rfl
      split
      · rfl
      · rfl

theorem lt_size_of_enclosingOwner (hts : ts.LinkTargets) {owner : Nat}
    (h : ts.enclosingOwner i = some owner) : owner < ts.size := by
  simp only [Tokens.enclosingOwner, Option.bind_eq_bind, Option.bind_eq_some_iff] at h
  obtain ⟨-, -, o, -, howner⟩ := h
  exact hts.scopeOwner o owner howner

theorem property?_eq (hts : ts.LinkTargets) (i : Nat) : property? ts i = pure (ts.property? i) := by
  rw [property?, Tokens.property?, kindIs, kind?]
  cases ht : ts.get? i with
  | none => rfl
  | some t =>
    by_cases hkind : t.kind = .variableName
    · simp only [hkind, if_true, enclosingOwner_eq, pure_bind]
      cases howner : ts.enclosingOwner i with
      | none => simp [hkind, guard]
      | some owner =>
        obtain ⟨w, hw⟩ := exists_get? (lt_size_of_enclosingOwner hts howner)
        have howns : ts.kindIs ownsProperties owner = ownsProperties w.kind := by
          rw [kindIs, kind?, hw]; rfl
        simp only [token_eq hw, pure_bind, propertyHead_eq, defaultAfter_eq, content_of_get? ht]
        by_cases hw : ownsProperties w.kind = true
        · by_cases hmodifier : (ts.propertyHead {} i).hasModifier = true
          · simp [hkind, guard, howns, hw, hmodifier]
          · simp [hkind, guard, hw, hmodifier]
        · simp [hkind, guard, howns, hw]
    · simp [hkind, guard]

end PhpStyle.Checked
