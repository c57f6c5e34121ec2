import PhpStyle.Proofs.CheckedReads
import PhpStyle.Proofs.LinkTargets
import PhpStyle.Proofs.OperandBounds

/-!
# Structural queries with reads that may fault

The queries of `PhpStyle.Token.Structure`, told as loops over indices that follow links wherever they
lead. Where links lead to tokens in order (`Tokens.LinkTargets`), each of them ends without a fault and
gives the answer of its total form: the walk to the start of a declaration goes down
(`declarationFrom_eq`), and the lines of a tag are cut out of its own comment (`tagText?_eq`).
-/

namespace PhpStyle.Checked

open Text Tokens

variable (ts : Tokens)

noncomputable section

/-- Walks from `start` back to the first token of the declaration at `index`. -/
def declarationFrom (index start : Nat) : Checked Nat :=
  loop (fun start => do
    match ← previousEffective ts start with
    | none => return .stop start
    | some p =>
      let t ← token ts p
      if t.kind = .closeAttribute then
        match t.links.bracketOpener with
        | some o => return .again o
        | none => return .stop start
      else if t.kind.isModifier then return .again p
      else if isTypePart t.kind then
        let declared ← token ts index
        if declared.kind = .variableName ∨ declared.kind = .name then return .again p
        else return .stop start
      else return .stop start) start

def declarationStart (index : Nat) : Checked Nat :=
  declarationFrom ts index index

def docCommentOf (index : Nat) : Checked (Option Nat) := do
  let start ← declarationStart ts index
  if start = 0 then return none
  else
    match ← findPrevious ts (fun t => t.kind != .blank) (start - 1) none with
    | none => return none
    | some p =>
      let closer ← token ts p
      if closer.kind = .docClose then
        let first ← token ts start
        return if first.line = closer.line + 1 then some p else none
      else return none

def docOpenerOf (index : Nat) : Checked (Option Nat) := do
  match ← docCommentOf ts index with
  | none => return none
  | some c => return (← token ts c).links.docOpener

def enclosingOwner (i : Nat) : Checked (Option Nat) := do
  if i = 0 then return none
  else
    match ← findPrevious ts (fun t => t.kind == .openBrace && t.links.scopeOwner.isSome &&
      t.links.scopeCloser.any (i < ·)) (i - 1) none with
    | none => return none
    | some o => return (← token ts o).links.scopeOwner

/-- Looks at the tokens from `i` on, with a counter for the brackets that are open. -/
def statementEndFrom (i depth last : Nat) : Checked Nat :=
  loop (fun (i, depth, last) => do
    if i < ts.size then
      let k := (← token ts i).kind
      let next := if k.isEffective then i else last
      if k.isOpener then return .again (i + 1, depth + 1, next)
      else if k.isCloser then
        if depth = 0 then return .stop last
        else
          let outer ← oneLess depth
          return .again (i + 1, outer, next)
      else if depth = 0 && endsStatement k then return .stop i
      else return .again (i + 1, depth, next)
    else return .stop last) (i, depth, last)

def endsExpression (c : Nat) : Checked Bool := do
  let t ← token ts c
  match t.links.scopeOwner with
  | some owner =>
    match (← token ts owner).kind with
    | .kwFunction =>
      testKind ts (fun k => k == .openParen || k == .bitwiseAnd) (← nextEffective ts owner)
    | .kwMatch => return true
    | .kwClass => testKind ts (· == .kwNew) (← previousEffective ts owner)
    | _ => return false
  | none =>
    match t.links.bracketOpener with
    | some o =>
      let before ← previousEffective ts o
      testKind ts (fun k => k == .arrow || k == .doubleColon || k == .variableName) before
    | none => return false

/-- Whether a token of kind `k` at `j` ends a block before a statement. -/
def endsBlock (k : Kind) (depth j : Nat) : Checked Bool :=
  if k = .closeBrace ∧ depth = 0 then return !(← endsExpression ts j) else return false

/-- Looks at the tokens below `i`, from the last one down, with a counter for the brackets that are
open. -/
def statementStartFrom (depth first i : Nat) : Checked Nat :=
  loop (fun (depth, first, i) => do
    if 0 < i then
      let j ← oneLess i
      let k := (← token ts j).kind
      if ← endsBlock ts k depth j then return .stop first
      else if k.isCloser then return .again (depth + 1, first, j)
      else if k.isOpener then
        if depth = 0 then return .stop first
        else
          let outer ← oneLess depth
          return .again (outer, if outer = 0 && k.isEffective then j else first, j)
      else if depth = 0 && precedesStatement k then return .stop first
      else return .again (depth, if depth = 0 && k.isEffective then j else first, j)
    else return .stop first) (depth, first, i)

def statementAt (i : Nat) : Checked Statement := do
  let first ← statementStartFrom ts 0 i i
  let last ← statementEndFrom ts i 0 i
  return ⟨first, last⟩

def tagText? (i : Nat) : Checked (Option String) := do
  match ts.get? i with
  | none => return none
  | some t =>
    if t.kind = .docTag then
      match ← findPrevious ts (fun t => t.kind == .docOpen) i none with
      | none => return none
      | some o =>
        match (← token ts o).links.docCloser with
        | none => return none
        | some c =>
          let body ← slice ts (i + 1) c
          let pieces := (body.takeWhile fun t => t.kind != .docTag).filter fun t => t.kind == .docText
          return some (String.ofList (joinWith [' '] (pieces.map fun t => trim t.content.toList)))
    else return none

end

theorem declarationFrom_turn (index start : Nat) : declarationFrom ts index start = (do
    match ← previousEffective ts start with
    | none => return start
    | some p =>
      let t ← token ts p
      if t.kind = .closeAttribute then
        match t.links.bracketOpener with
        | some o => declarationFrom ts index o
        | none => return start
      else if t.kind.isModifier then declarationFrom ts index p
      else if isTypePart t.kind then
        let declared ← token ts index
        if declared.kind = .variableName ∨ declared.kind = .name then declarationFrom ts index p
        else return start
      else return start) := by
  rw [declarationFrom, loop_eq, bind_assoc]
  refine bind_congr fun p? => ?_
  cases p? with
  | none => rfl
  | some p =>
    simp only [bind_assoc]
    refine bind_congr fun t => ?_
    split
    · split <;> rfl
    split
    · rfl
    split
    · rw [bind_assoc]
      refine bind_congr fun declared => ?_
      split <;> rfl
    · rfl

theorem statementEndFrom_turn (i depth last : Nat) : statementEndFrom ts i depth last = (do
    if i < ts.size then
      let k := (← token ts i).kind
      let next := if k.isEffective then i else last
      if k.isOpener then statementEndFrom ts (i + 1) (depth + 1) next
      else if k.isCloser then
        if depth = 0 then return last
        else
          let outer ← oneLess depth
          statementEndFrom ts (i + 1) outer next
      else if depth = 0 && endsStatement k then return i
      else statementEndFrom ts (i + 1) depth next
    else return last) := by
  rw [statementEndFrom, loop_eq]
  simp only
  split
  · rw [bind_assoc]
    refine bind_congr fun t => ?_
    split
    · rfl
    split
    · split
      · rfl
      · rw [bind_assoc]
        rfl
    split <;> rfl
  · rfl

theorem statementStartFrom_turn (depth first i : Nat) : statementStartFrom ts depth first i = (do
    if 0 < i then
      let j ← oneLess i
      let k := (← token ts j).kind
      if ← endsBlock ts k depth j then return first
      else if k.isCloser then statementStartFrom ts (depth + 1) first j
      else if k.isOpener then
        if depth = 0 then return first
        else
          let outer ← oneLess depth
          statementStartFrom ts outer (if outer = 0 && k.isEffective then j else first) j
      else if depth = 0 && precedesStatement k then return first
      else statementStartFrom ts depth (if depth = 0 && k.isEffective then j else first) j
    else return first) := by
  rw [statementStartFrom, loop_eq]
  simp only
  split
  · simp only [bind_assoc]
    refine bind_congr fun j => bind_congr fun t => bind_congr fun ends => ?_
    split
    · rfl
    split
    · rfl
    split
    · split
      · rfl
      · rw [bind_assoc]
        rfl
    split <;> rfl
  · rfl

/-! ### The walk to the start of a declaration -/

variable {ts : Tokens} {i index start : Nat}

theorem declarationFrom_step (hindex : index < ts.size) (start : Nat) :
    declarationFrom ts index start = match ts.declarationStep index start with
      | some s => declarationFrom ts index s
      | none => pure start := by
  rw [declarationFrom_turn, previousEffective_eq, pure_bind, declarationStep]
  cases hp : ts.previousEffective start with
  | none => rfl
  | some p =>
    obtain ⟨t, ht⟩ := exists_get? (lt_size_of_previousEffective hp)
    obtain ⟨declared, hdeclared⟩ := exists_get? hindex
    have hkind : ts.kindIs (fun k => k == .variableName || k == .name) index =
        (declared.kind == .variableName || declared.kind == .name) := by
      rw [kindIs, kind?, hdeclared]
      rfl
    simp only [token_eq ht, token_eq hdeclared, pure_bind, Option.bind_eq_bind, Option.bind_some, ht,
      hkind]
    by_cases hattribute : t.kind = .closeAttribute
    · simp only [hattribute, if_true]
    by_cases hmodifier : t.kind.isModifier = true
    · simp only [hattribute, hmodifier, if_true, if_false]
    by_cases htype : isTypePart t.kind = true
    · by_cases hname : declared.kind = .variableName ∨ declared.kind = .name
      · simp [hattribute, hmodifier, htype, hname]
      · simp [hattribute, hmodifier, htype, hname]
    · simp [hattribute, hmodifier, htype]

theorem declarationStep_lt (hts : ts.LinkTargets) {s : Nat}
    (h : ts.declarationStep index start = some s) : s < start := by
  rw [declarationStep] at h
  simp only [Option.bind_eq_bind, Option.bind_eq_some_iff] at h
  obtain ⟨p, hp, t, ht, h⟩ := h
  obtain ⟨-, hlt, -⟩ := gap_of_previousEffective hp
  split at h
  · rename_i hkind
    have hopener : (ts.links p).bracketOpener = some s := by
      rw [links, ht]
      exact h
    exact (hts.bracketOpener p s (by rw [kind?, ht, Option.map_some, hkind]) hopener).trans hlt
  · split at h
    · cases h
      exact hlt
    · split at h
      · cases h
        exact hlt
      · cases h

theorem declarationFrom_eq (hts : ts.LinkTargets) (hindex : index < ts.size) (start : Nat) :
    declarationFrom ts index start = pure (ts.declarationFrom index start) := by
  induction start using Nat.strong_induction_on with
  | _ start ih =>
    rw [declarationFrom_step hindex, Tokens.declarationFrom]
    cases hstep : ts.declarationStep index start with
    | none => rfl
    | some s =>
      have hlt := declarationStep_lt hts hstep
      simp only [if_pos hlt]
      exact ih s hlt

theorem declarationStart_eq (hts : ts.LinkTargets) (hindex : index < ts.size) :
    declarationStart ts index = pure (ts.declarationStart index) :=
  declarationFrom_eq hts hindex index

theorem docCommentOf_eq (hts : ts.LinkTargets) (hindex : index < ts.size) :
    docCommentOf ts index = pure (ts.docCommentOf index) := by
  have hsize : ts.declarationStart index < ts.size := (ts.declarationStart_le index).trans_lt hindex
  rw [docCommentOf, declarationStart_eq hts hindex, pure_bind, Tokens.docCommentOf]
  generalize ts.declarationStart index = start at hsize ⊢
  by_cases hstart : start = 0
  · rw [if_pos hstart, hstart]
    rfl
  have hpos : 0 < start := Nat.pos_of_ne_zero hstart
  rw [if_neg hstart, findPrevious_eq, pure_bind]
  cases hp : ts.findPrevious (fun t => t.kind != .blank) (start - 1) none with
  | none => simp [hpos, guard]
  | some p =>
    obtain ⟨closer, hcloser⟩ := exists_get? (lt_size_of_findPrevious hp)
    obtain ⟨first, hfirst⟩ := exists_get? hsize
    simp only [token_eq hcloser, token_eq hfirst, pure_bind, Option.bind_eq_bind, Option.bind_some,
      hcloser, hfirst, hpos, guard, if_true]
    by_cases hkind : closer.kind = .docClose
    · by_cases hline : first.line = closer.line + 1
      · simp [hkind, hline]
      · simp [hkind, hline]
    · simp [hkind]

theorem lt_size_of_docCommentOf {c : Nat} (h : ts.docCommentOf index = some c) :
    c < ts.size ∧ ts.kind? c = some .docClose := by
  obtain ⟨-, hp, t, u, ht, -, hkind, -⟩ := docCommentOf_eq_some.1 h
  exact ⟨lt_size_of_findPrevious hp, by rw [kind?, ht, Option.map_some, hkind]⟩

theorem docOpenerOf_eq (hts : ts.LinkTargets) (hindex : index < ts.size) :
    docOpenerOf ts index = pure (ts.docOpenerOf index) := by
  rw [docOpenerOf, docCommentOf_eq hts hindex, pure_bind, Tokens.docOpenerOf]
  cases hc : ts.docCommentOf index with
  | none => rfl
  | some c =>
    obtain ⟨t, ht⟩ := exists_get? (lt_size_of_docCommentOf hc).1
    simp only [token_eq ht, pure_bind, Option.bind_some, links_of_get? ht]

theorem enclosingOwner_eq (i : Nat) : enclosingOwner ts i = pure (ts.enclosingOwner i) := by
  rw [enclosingOwner, Tokens.enclosingOwner]
  by_cases hi : i = 0
  · rw [if_pos hi, hi]
    rfl
  have hpos : 0 < i := Nat.pos_of_ne_zero hi
  rw [if_neg hi, findPrevious_eq, pure_bind]
  simp only [guard, hpos, if_true, Option.bind_eq_bind]
  cases ho : ts.findPrevious (fun t => t.kind == .openBrace && t.links.scopeOwner.isSome &&
      t.links.scopeCloser.any (i < ·)) (i - 1) none with
  | none => rfl
  | some o =>
    obtain ⟨t, ht⟩ := exists_get? (lt_size_of_findPrevious ho)
    simp only [token_eq ht, pure_bind, links_of_get? ht]
    rfl

theorem statementEndFrom_eq {depth last : Nat} :
    statementEndFrom ts i depth last = pure (ts.statementEndFrom i depth last (ts.size - i)) := by
  generalize hn : ts.size - i = n
  induction n generalizing i depth last with
  | zero =>
    rw [statementEndFrom_turn, if_neg (by omega)]
    rfl
  | succ n ih =>
    obtain ⟨t, ht⟩ := exists_get? (show i < ts.size by omega)
    have hk : ts.kind? i = some t.kind := by rw [kind?, ht]; rfl
    have hnext : ts.size - (i + 1) = n := by omega
    rw [statementEndFrom_turn, if_pos (by omega), token_eq ht, pure_bind, Tokens.statementEndFrom, hk]
    simp only [ih hnext]
    split
    · rfl
    split
    · cases depth with
      | zero => rfl
      | succ depth => rfl
    split
    · rfl
    · rfl

theorem endsExpression_eq (hts : ts.LinkTargets) {c : Nat} (hc : c < ts.size) :
    endsExpression ts c = pure (ts.endsExpression c) := by
  have htest : ∀ (p : Kind → Bool) (j : Nat),
      testKind ts p (ts.previousEffective j) = pure ((ts.previousEffective j).any (ts.kindIs p)) :=
    fun p j => testKind_eq fun q hq => lt_size_of_previousEffective hq
  obtain ⟨t, ht⟩ := exists_get? hc
  rw [endsExpression, Tokens.endsExpression, token_eq ht, pure_bind, ← links_of_get? ht]
  cases howner : t.links.scopeOwner with
  | some owner =>
    rw [links_of_get? ht] at howner
    obtain ⟨w, hw⟩ := exists_get? (hts.scopeOwner c owner howner)
    have hk : ts.kind? owner = some w.kind := by rw [kind?, hw]; rfl
    simp only [token_eq hw, pure_bind, hk, nextEffective_eq, previousEffective_eq, htest]
    have hnext : testKind ts (fun k => k == .openParen || k == .bitwiseAnd) (ts.nextEffective owner) =
        pure ((ts.nextEffective owner).any (ts.kindIs fun k => k == .openParen || k == .bitwiseAnd)) :=
      testKind_eq fun q hq => lt_size_of_findNext hq
    rw [hnext]
    split <;> simp_all
  | none =>
    cases t.links.bracketOpener with
    | none => rfl
    | some o =>
      simp only [previousEffective_eq, pure_bind, htest]
      rfl

theorem endsBlock_eq (hts : ts.LinkTargets) {k : Kind} {depth j : Nat} (hj : j < ts.size) :
    endsBlock ts k depth j = pure (k = .closeBrace && depth = 0 && !ts.endsExpression j) := by
  rw [endsBlock, endsExpression_eq hts hj]
  by_cases hk : k = .closeBrace
  · by_cases hdepth : depth = 0
    · simp [hk, hdepth]
    · simp [hdepth]
  · simp [hk]

theorem statementStartFrom_eq (hts : ts.LinkTargets) {depth first : Nat} (hi : i ≤ ts.size) :
    statementStartFrom ts depth first i = pure (ts.statementStartFrom depth first i) := by
  induction i generalizing depth first with
  | zero =>
    rw [statementStartFrom_turn, if_neg (Nat.lt_irrefl 0)]
    rfl
  | succ j ih =>
    obtain ⟨t, ht⟩ := exists_get? (show j < ts.size by omega)
    have hk : ts.kind? j = some t.kind := by rw [kind?, ht]; rfl
    have hopener : t.kind.isOpener = true → t.kind.isEffective = true := by
      cases t.kind <;> decide
    have hblock : endsBlock ts t.kind depth j = _ := endsBlock_eq hts hi
    rw [statementStartFrom_turn, if_pos (Nat.succ_pos j), oneLess, pure_bind, token_eq ht, pure_bind,
      Tokens.statementStartFrom, hk]
    simp only [hblock, pure_bind, ih (Nat.le_of_succ_le hi)]
    split
    · rfl
    split
    · rfl
    split
    · rename_i hopens
      cases depth with
      | zero => rfl
      | succ depth => simp [oneLess, hopener hopens]
    cases depth with
    | zero => split <;> simp_all
    | succ depth => rfl

theorem statementAt_eq (hts : ts.LinkTargets) (hi : i < ts.size) :
    statementAt ts i = pure (ts.statementAt i) := by
  rw [statementAt, statementStartFrom_eq hts (Nat.le_of_lt hi), pure_bind, statementEndFrom_eq, pure_bind]
  rfl

theorem tagText?_eq (hts : ts.LinkTargets) (i : Nat) : tagText? ts i = pure (ts.tagText? i) := by
  rw [tagText?, Tokens.tagText?, kindIs, kind?]
  cases ht : ts.get? i with
  | none => rfl
  | some t =>
    by_cases hkind : t.kind = .docTag
    · have hk : ts.kind? i = some .docTag := by rw [kind?, ht, Option.map_some, hkind]
      simp only [hkind, findPrevious_eq, pure_bind]
      cases ho : ts.findPrevious (fun t => t.kind == .docOpen) i none with
      | none => simp [guard, hkind]
      | some o =>
        obtain ⟨u, hu⟩ := exists_get? (lt_size_of_findPrevious ho)
        simp only [token_eq hu, pure_bind, links_of_get? hu]
        cases hc : (ts.links o).docCloser with
        | none => simp [guard, hkind, hc]
        | some c =>
          have hlt := hts.tag i o c hk ho hc
          have hsize := (hts.docCloser o c hc).2
          simp [slice_eq hlt hsize.le, guard, hkind, hc]
    · simp [hkind, guard]

end PhpStyle.Checked
