import PhpStyle.Proofs.DocRelexing
import PhpStyle.Proofs.TypeRoundTrip

/-!
# The reader of a tag's text

What a tag's text is read with, one character at a time: `Reader.step` says how the type at its start
goes on, `Reader.run` over a text of several. Where the type ends (`typeLength_of_run`,
`run_typeLength`) and where it is split into alternatives (`splitTop_cases`) both follow from the
run. Behind a bar the reader stands as at the start (`step_bar`), so every alternative is read like a
type of its own.
-/

namespace PhpStyle

open Text

namespace DocType

/-- Where the reader of a tag's text stands: the bracket depth, the open quote, and the characters
before, nearest first. -/
structure Reader where
  depth : Int := 0
  quote : Option Char := none
  before : List Char := []
  deriving DecidableEq

namespace Reader

variable {r r' s : Reader} {c : Char} {u v cs : List Char}

/-- The next character, if the type goes on with it. -/
def step (r : Reader) (c : Char) : Option Reader :=
  match r.quote with
  | some q => some ⟨r.depth, if c = q then none else some q, c :: r.before⟩
  | none =>
    if isQuote c then some ⟨r.depth, some c, c :: r.before⟩
    else if opens c then some ⟨r.depth + 1, none, c :: r.before⟩
    else if closes c then if r.depth ≤ 0 then none else some ⟨r.depth - 1, none, c :: r.before⟩
    else if isBlank c && r.depth = 0 then if r.before.take 2 = [':', ')'] then some r else none
    else some ⟨r.depth, none, c :: r.before⟩

def run (r : Reader) (cs : List Char) : Option Reader :=
  cs.foldlM step r

theorem run_cons : r.run (c :: cs) = (r.step c).bind fun r => r.run cs :=
  List.foldlM_cons

theorem run_append : r.run (u ++ v) = (r.run u).bind fun r => r.run v :=
  List.foldlM_append

theorem run_cons_eq_some : r.run (c :: cs) = some s ↔ ∃ r', r.step c = some r' ∧ r'.run cs = some s := by
  rw [run_cons, Option.bind_eq_some_iff]

theorem run_append_eq_some : r.run (u ++ v) = some s ↔ ∃ r', r.run u = some r' ∧ r'.run v = some s := by
  rw [run_append, Option.bind_eq_some_iff]

/-- What the next character can do. -/
inductive Reads (r : Reader) (c : Char) : Reader → Prop
  | quoted {q : Char} (hquote : r.quote = some q) :
      Reads r c ⟨r.depth, if c = q then none else some q, c :: r.before⟩
  | quote (hquote : r.quote = none) (hc : isQuote c = true) :
      Reads r c ⟨r.depth, some c, c :: r.before⟩
  | opener (hquote : r.quote = none) (hc : opens c = true) :
      Reads r c ⟨r.depth + 1, none, c :: r.before⟩
  | closer (hquote : r.quote = none) (hc : closes c = true) (hdepth : 0 < r.depth) :
      Reads r c ⟨r.depth - 1, none, c :: r.before⟩
  | gap (hquote : r.quote = none) (hc : isBlank c = true) (hdepth : r.depth = 0)
      (hbefore : r.before.take 2 = [':', ')']) : Reads r c r
  | plain (hquote : r.quote = none) (hc : isInert c = true)
      (hblank : (isBlank c && decide (r.depth = 0)) = false) :
      Reads r c ⟨r.depth, none, c :: r.before⟩

theorem reads_of_step (h : r.step c = some r') : r.Reads c r' := by
  unfold step at h
  split at h
  · cases h
    exact .quoted ‹_›
  · split at h
    · cases h
      exact .quote ‹_› ‹_›
    split at h
    · cases h
      exact .opener ‹_› ‹_›
    split at h
    · split at h
      · cases h
      · cases h
        exact .closer ‹_› ‹_› (by omega)
    split at h
    · rename_i hblank
      simp only [Bool.and_eq_true, decide_eq_true_eq] at hblank
      split at h
      · cases h
        exact .gap ‹_› hblank.1 hblank.2 ‹_›
      · cases h
    · cases h
      exact .plain ‹_› (by simp [isInert, *]) (Bool.eq_false_iff.2 ‹_›)

theorem isInert_of_isBlank (h : isBlank c = true) : isInert c = true :=
  isInert_of_ne fun _ hd => ne_of_isBlank h hd

theorem step_of_reads (h : r.Reads c r') : r.step c = some r' := by
  cases h with
  | quoted hquote => simp [step, hquote]
  | quote hquote hc => simp [step, hquote, hc]
  | opener hquote hc => simp [step, hquote, hc, of_opens hc]
  | closer hquote hc hdepth => simp [step, hquote, hc, of_closes hc, Int.not_le.2 hdepth]
  | gap hquote hc hdepth hbefore =>
    simp [step, hquote, hc, isInert_iff.1 (isInert_of_isBlank hc), hdepth, hbefore]
  | plain hquote hc hblank => simp [step, hquote, isInert_iff.1 hc, hblank]

theorem typeLength_of_step (h : r.step c = some r') (cs : List Char) :
    typeLength r.depth r.quote r.before (c :: cs) =
      ((typeLength r'.depth r'.quote r'.before cs).1 + 1,
        (typeLength r'.depth r'.quote r'.before cs).2) := by
  cases reads_of_step h with
  | quoted hquote => rw [hquote, typeLength]
  | quote hquote hc => simp only [hquote, typeLength, hc, if_true]
  | opener hquote hc => simp [hquote, typeLength, hc, of_opens hc]
  | closer hquote hc hdepth => simp [hquote, typeLength, hc, of_closes hc, Int.not_le.2 hdepth]
  | gap hquote hc hdepth hbefore =>
    simp [hquote, typeLength, hc, isInert_iff.1 (isInert_of_isBlank hc), hdepth, hbefore]
  | plain hquote hc hblank => simp [hquote, typeLength, isInert_iff.1 hc, hblank]

/-- The reader is at a bar between alternatives. -/
def AtBar (r : Reader) (c : Char) : Prop :=
  r.quote = none ∧ r.depth = 0 ∧ c = '|'

theorem splitTop_of_atBar (h : r.AtBar c) (cs : List Char) :
    splitTop '|' r.depth r.quote (c :: cs) = [] :: splitTop '|' 0 none cs := by
  obtain ⟨hquote, hdepth, rfl⟩ := h
  rw [hquote, hdepth, splitTop]
  rfl

theorem splitTop_of_not_atBar (h : r.step c = some r') (hbar : ¬ r.AtBar c) (cs : List Char) :
    splitTop '|' r.depth r.quote (c :: cs) = prepend c (splitTop '|' r'.depth r'.quote cs) := by
  cases reads_of_step h with
  | quoted hquote => rw [hquote, splitTop]
  | quote hquote hc => simp only [hquote, splitTop, hc, if_true]
  | opener hquote hc => simp [hquote, splitTop, hc, of_opens hc]
  | closer hquote hc hdepth => simp [hquote, splitTop, hc, of_closes hc]
  | gap hquote hc hdepth hbefore =>
    have hne : c ≠ '|' := ne_of_isBlank hc (by decide)
    simp [hquote, splitTop, isInert_iff.1 (isInert_of_isBlank hc), hne]
  | plain hquote hc hblank =>
    have hnot : ¬ (c = '|' ∧ r.depth = 0) := fun h => hbar ⟨hquote, h.2, h.1⟩
    simp [hquote, splitTop, isInert_iff.1 hc, hnot]

theorem typeLength_of_run (h : r.run u = some r') (v : List Char) :
    typeLength r.depth r.quote r.before (u ++ v) =
      ((typeLength r'.depth r'.quote r'.before v).1 + u.length,
        (typeLength r'.depth r'.quote r'.before v).2) := by
  induction u generalizing r with
  | nil =>
    cases h
    rfl
  | cons c u ih =>
    obtain ⟨s, hs, hrun⟩ := run_cons_eq_some.1 h
    rw [List.cons_append, typeLength_of_step hs, ih hrun, List.length_cons, Nat.add_assoc]

/-- A return type is awaited, as in `callable(int): void`. -/
def Awaits (r : Reader) : Prop :=
  r.before.take 2 = [':', ')']

theorem stops_of_step (h : r.step c = none) : r.quote = none ∧
    (closes c = true ∧ r.depth ≤ 0 ∨ isBlank c = true ∧ r.depth = 0 ∧ ¬ r.Awaits) := by
  unfold step at h
  split at h
  · cases h
  · refine ⟨‹_›, ?_⟩
    split at h
    · cases h
    split at h
    · cases h
    split at h
    · split at h
      · exact .inl ⟨‹_›, ‹_›⟩
      · cases h
    split at h
    · rename_i hblank
      simp only [Bool.and_eq_true, decide_eq_true_eq] at hblank
      split at h
      · cases h
      · exact .inr ⟨hblank.1, hblank.2, ‹_›⟩
    · cases h

/-- The reader goes over the type at the start of a text, and what stops it is a blank. -/
theorem run_typeLength (h : (typeLength r.depth r.quote r.before cs).2 = 0) :
    ∃ r', r.run (cs.take (typeLength r.depth r.quote r.before cs).1) = some r' ∧ r'.depth = 0 ∧
      (cs.drop (typeLength r.depth r.quote r.before cs).1 ≠ [] → r'.quote = none ∧ ¬ r'.Awaits) := by
  induction cs generalizing r with
  | nil => exact ⟨r, rfl, h, fun hne => absurd rfl hne⟩
  | cons c cs ih =>
    cases hstep : r.step c with
    | some s =>
      rw [typeLength_of_step hstep] at h ⊢
      obtain ⟨r', hrun, hr'⟩ := ih h
      refine ⟨r', ?_, hr'⟩
      rw [List.take_succ_cons, run_cons, hstep]
      exact hrun
    | none =>
      obtain ⟨hquote, ⟨hc, hdepth⟩ | ⟨hc, hdepth, hawaits⟩⟩ := stops_of_step hstep
      · -- a closer too many leaves the depth below zero
        obtain ⟨hopens, hnot⟩ := of_closes hc
        rw [hquote, typeLength] at h
        simp only [hnot, hopens, hc, hdepth, Bool.false_eq_true, if_false, if_true] at h
        omega
      · have hzero : (typeLength r.depth r.quote r.before (c :: cs)).1 = 0 := by
          have hawaits : ¬ r.before.take 2 = [':', ')'] := hawaits
          simp [hquote, typeLength, isInert_iff.1 (isInert_of_isBlank hc), hc, hdepth, hawaits]
        rw [hzero]
        exact ⟨r, rfl, hdepth, fun _ => ⟨hquote, hawaits⟩⟩

/-- A type that was read to its end is as long as its text. -/
theorem typeLength_of_end (h : r.run u = some r') (hdepth : r'.depth = 0)
    (hrest : v.head?.all isBlank = true) (hend : v ≠ [] → r'.quote = none ∧ ¬ r'.Awaits) :
    typeLength r.depth r.quote r.before (u ++ v) = (u.length, 0) := by
  rw [typeLength_of_run h]
  cases v with
  | nil => simp [typeLength, hdepth]
  | cons c v =>
    obtain ⟨hquote, hawaits⟩ := hend (List.cons_ne_nil c v)
    have hc : isBlank c = true := hrest
    have hawaits : ¬ r'.before.take 2 = [':', ')'] := hawaits
    simp [hquote, typeLength, isInert_iff.1 (isInert_of_isBlank hc), hc, hdepth, hawaits]

/-- Two readers that will read the same. -/
structure Alike (r r' : Reader) : Prop where
  depth : r'.depth = r.depth
  quote : r'.quote = r.quote
  paren : r'.before.head? = some ')' ↔ r.before.head? = some ')'
  awaits : r'.Awaits ↔ r.Awaits

theorem awaits_iff {before : List Char} (h : r.before = c :: before) :
    r.Awaits ↔ c = ':' ∧ before.head? = some ')' := by
  rw [Awaits, h]
  cases before <;> simp

theorem Alike.cons (h : r.Alike r') (depth : Int) (quote : Option Char) (c : Char) :
    Alike ⟨depth, quote, c :: r.before⟩ ⟨depth, quote, c :: r'.before⟩ := by
  refine ⟨rfl, rfl, Iff.rfl, ?_⟩
  rw [awaits_iff rfl, awaits_iff rfl, h.paren]

theorem Alike.step (h : r.Alike r') (hs : r.step c = some s) :
    ∃ s', r'.step c = some s' ∧ s.Alike s' := by
  cases reads_of_step hs with
  | quoted hquote =>
    refine ⟨_, step_of_reads (.quoted (h.quote.trans hquote)), ?_⟩
    rw [h.depth]
    exact h.cons _ _ _
  | quote hquote hc =>
    refine ⟨_, step_of_reads (.quote (h.quote.trans hquote) hc), ?_⟩
    rw [h.depth]
    exact h.cons _ _ _
  | opener hquote hc =>
    refine ⟨_, step_of_reads (.opener (h.quote.trans hquote) hc), ?_⟩
    rw [h.depth]
    exact h.cons _ _ _
  | closer hquote hc hdepth =>
    refine ⟨_, step_of_reads (.closer (h.quote.trans hquote) hc (h.depth ▸ hdepth)), ?_⟩
    rw [h.depth]
    exact h.cons _ _ _
  | gap hquote hc hdepth hbefore =>
    exact ⟨r', step_of_reads (.gap (h.quote.trans hquote) hc (h.depth.trans hdepth)
      (h.awaits.2 hbefore)), h⟩
  | plain hquote hc hblank =>
    refine ⟨_, step_of_reads (.plain (h.quote.trans hquote) hc (h.depth.symm ▸ hblank)), ?_⟩
    rw [h.depth]
    exact h.cons _ _ _

theorem Alike.run (h : r.Alike r') (hs : r.run cs = some s) : ∃ s', r'.run cs = some s' ∧ s.Alike s' := by
  induction cs generalizing r r' with
  | nil =>
    cases hs
    exact ⟨r', rfl, h⟩
  | cons c cs ih =>
    obtain ⟨t, ht, hrun⟩ := run_cons_eq_some.1 hs
    obtain ⟨t', ht', halike⟩ := h.step ht
    obtain ⟨s', hs', hend⟩ := ih halike hrun
    exact ⟨s', run_cons_eq_some.2 ⟨t', ht', hs'⟩, hend⟩

theorem Alike.symm (h : r.Alike r') : r'.Alike r :=
  ⟨h.depth.symm, h.quote.symm, h.paren.symm, h.awaits.symm⟩

/-- Behind a bar between alternatives the reader stands as at the start. -/
theorem step_bar (hdepth : r.depth = 0) (hquote : r.quote = none) :
    ∃ r', r.step '|' = some r' ∧ Alike {} r' := by
  refine ⟨_, step_of_reads (.plain hquote (by decide) (by simp [isBlank])), ?_⟩
  rw [hdepth]
  refine ⟨rfl, rfl, by simp, ?_⟩
  rw [awaits_iff rfl]
  simp [Awaits]

/-! ### Quotes and return types -/

end Reader

/-- The quote that is open behind a character, given the one before it. -/
def nextQuote (quote : Option Char) (c : Char) : Option Char :=
  match quote with
  | some q => if c = q then none else some q
  | none => if isQuote c then some c else none

/-- The quote that is open at the end of a text. -/
def openQuote (cs : List Char) : Option Char :=
  cs.foldl nextQuote none

namespace Reader

variable {r r' s : Reader} {c : Char} {u v cs : List Char}

theorem quote_of_step (h : r.step c = some r') : r'.quote = nextQuote r.quote c := by
  cases reads_of_step h with
  | quoted hquote => simp only [hquote, nextQuote]
  | quote hquote hc => simp only [hquote, nextQuote, hc, if_true]
  | opener hquote hc => simp [hquote, nextQuote, of_opens hc]
  | closer hquote hc hdepth => simp [hquote, nextQuote, of_closes hc]
  | gap hquote hc hdepth hbefore =>
    simp [hquote, nextQuote, isInert_iff.1 (isInert_of_isBlank hc)]
  | plain hquote hc hblank => simp [hquote, nextQuote, isInert_iff.1 hc]

theorem quote_of_run (h : r.run cs = some r') : r'.quote = cs.foldl nextQuote r.quote := by
  induction cs generalizing r with
  | nil =>
    cases h
    rfl
  | cons c cs ih =>
    obtain ⟨s, hs, hrun⟩ := run_cons_eq_some.1 h
    rw [ih hrun, quote_of_step hs, List.foldl_cons]

theorem before_of_step (h : r.step c = some r') :
    r'.before = c :: r.before ∨ isBlank c = true ∧ r.Awaits ∧ r' = r := by
  cases reads_of_step h with
  | gap _ hc _ hbefore => exact .inr ⟨hc, hbefore, rfl⟩
  | _ => exact .inl rfl

/-- A return type is awaited only behind a parenthesis and a colon, and blanks after them. -/
theorem suffix_of_awaits (h : ({} : Reader).run cs = some r) :
    (r.before.head? = some ')' → cs.getLast? = some ')') ∧
      (r.Awaits → [')', ':'] <:+ trimEnd cs) := by
  induction cs using List.reverseRecOn generalizing r with
  | nil =>
    cases h
    exact ⟨nofun, nofun⟩
  | append_singleton cs c ih =>
    obtain ⟨s, hs, hstep⟩ := run_append_eq_some.1 h
    obtain ⟨r, hr, hrun⟩ := run_cons_eq_some.1 hstep
    cases hrun
    obtain ⟨ihparen, ihawaits⟩ := ih hs
    rcases before_of_step hr with hbefore | ⟨hc, hawaits, rfl⟩
    · refine ⟨fun hparen => ?_, fun hawaits => ?_⟩
      · rw [hbefore] at hparen
        rw [List.getLast?_concat]
        exact hparen
      · obtain ⟨rfl, hparen⟩ := (awaits_iff hbefore).1 hawaits
        obtain ⟨ds, rfl⟩ := List.getLast?_eq_some_iff.1 (ihparen hparen)
        rw [Lexer.trimEnd_of_getLast? List.getLast?_concat (by decide), List.append_assoc]
        exact List.suffix_append ds _
    · refine ⟨fun hparen => ?_, fun _ => ?_⟩
      · have hcolon := congrArg List.head? hawaits
        rw [List.head?_take, if_neg (by decide), hparen] at hcolon
        cases hcolon
      · rw [Lexer.trimEnd_append_of_blank (by simpa using hc)]
        exact ihawaits hawaits

theorem isQuote_of_run (h : ({} : Reader).run cs = some r) {q : Char} (hq : r.quote = some q) :
    isQuote q = true := by
  induction cs using List.reverseRecOn generalizing r with
  | nil =>
    cases h
    cases hq
  | append_singleton cs c ih =>
    obtain ⟨s, hs, hstep⟩ := run_append_eq_some.1 h
    obtain ⟨r, hr, hrun⟩ := run_cons_eq_some.1 hstep
    cases hrun
    rw [quote_of_step hr] at hq
    unfold nextQuote at hq
    split at hq
    · split at hq
      · cases hq
      · exact ih hs (hq ▸ ‹_›)
    · split at hq
      · cases hq
        assumption
      · cases hq

theorem quote_of_next (h : ({} : Reader).run cs = some s) (hs : s.step c = some r)
    (hc : isQuote c = false) (hr : r.quote = none) : s.quote = none := by
  cases hq : s.quote with
  | none => rfl
  | some q =>
    have hne : c ≠ q := by
      rintro rfl
      rw [isQuote_of_run h hq] at hc
      cases hc
    rw [quote_of_step hs, hq, nextQuote, if_neg hne] at hr
    cases hr

/-- Behind a parenthesis and a colon outside of brackets a return type is awaited. -/
theorem awaits_of_suffix (h : ({} : Reader).run cs = some r) (hdepth : r.depth = 0)
    (hquote : r.quote = none) (hsuffix : [')', ':'] <:+ trimEnd cs) : r.Awaits := by
  cases cs using List.reverseRecOn with
  | nil => cases List.suffix_nil.1 hsuffix
  | append_singleton cs c =>
    obtain ⟨s, hs, hstep⟩ := run_append_eq_some.1 h
    obtain ⟨r, hr, hrun⟩ := run_cons_eq_some.1 hstep
    cases hrun
    cases hc : isBlank c with
    | true =>
      -- outside of brackets and quotes a type goes over a blank only where it awaits more
      obtain ⟨hopens, hcloses, hnot⟩ := isInert_iff.1 (isInert_of_isBlank hc)
      cases reads_of_step hr with
      | quoted hq =>
        rw [quote_of_next hs hr hnot hquote] at hq
        cases hq
      | quote _ hq => exact absurd hq (by simp [hnot])
      | opener _ ho => exact absurd ho (by simp [hopens])
      | closer _ hc' => exact absurd hc' (by simp [hcloses])
      | gap _ _ _ hawaits => exact hawaits
      | plain _ _ hblank =>
        have hdepth : s.depth = 0 := hdepth
        simp [hc, hdepth] at hblank
    | false =>
      rw [Lexer.trimEnd_of_getLast? List.getLast?_concat hc] at hsuffix
      obtain ⟨ds, hds⟩ := hsuffix
      have hsplit : (ds ++ [')']) ++ [':'] = cs ++ [c] := by
        rw [← hds, List.append_assoc]
        rfl
      obtain ⟨rfl, hcolon⟩ := List.append_inj' hsplit rfl
      cases hcolon
      obtain ⟨t, -, hparen⟩ := run_append_eq_some.1 hs
      obtain ⟨s, ht, hend⟩ := run_cons_eq_some.1 hparen
      cases hend
      have hcolon := (before_of_step hr).resolve_right (by simp [isBlank])
      have hparen := (before_of_step ht).resolve_right (by simp [isBlank])
      rw [awaits_iff hcolon, hparen]
      exact ⟨rfl, rfl⟩

theorem prepend_eq_singleton {p : List Char} {ps : List (List Char)} :
    prepend c ps = [c :: p] → ps = [] ∨ ps = [p] := by
  intro h
  cases ps with
  | nil => exact .inl rfl
  | cons q qs =>
    cases h
    exact .inr rfl

theorem splitTop_ne_nil (sep : Char) (depth : Int) (quote : Option Char) (cs : List Char) :
    splitTop sep depth quote cs ≠ [] := by
  have hprepend : ∀ (c : Char) (ps : List (List Char)), prepend c ps ≠ [] := by
    intro c ps
    cases ps <;> exact List.cons_ne_nil _ _
  cases cs with
  | nil => exact List.cons_ne_nil _ _
  | cons c cs =>
    cases quote with
    | some q => exact hprepend _ _
    | none =>
      rw [splitTop]
      split_ifs
      · exact hprepend _ _
      · exact hprepend _ _
      · exact hprepend _ _
      · exact List.cons_ne_nil _ _
      · exact hprepend _ _

theorem splitTop_of_run (h : r.run cs = some s) :
    splitTop '|' r.depth r.quote cs = [cs] ∨
      ∃ p w r', cs = p ++ '|' :: w ∧ r.run p = some r' ∧ r'.depth = 0 ∧ r'.quote = none ∧
        splitTop '|' r.depth r.quote p = [p] ∧
          splitTop '|' r.depth r.quote cs = p :: splitTop '|' 0 none w := by
  induction cs generalizing r with
  | nil => exact .inl rfl
  | cons c cs ih =>
    by_cases hbar : r.AtBar c
    · obtain ⟨hquote, hdepth, rfl⟩ := hbar
      exact .inr ⟨[], cs, r, rfl, rfl, hdepth, hquote, rfl, splitTop_of_atBar ⟨hquote, hdepth, rfl⟩ cs⟩
    · obtain ⟨t, ht, hrun⟩ := run_cons_eq_some.1 h
      have hstep := splitTop_of_not_atBar ht hbar
      rcases ih hrun with hone | ⟨p, w, r', hcs, hp, hdepth, hquote, hsingle, hsplit⟩
      · rw [hstep, hone]
        exact .inl rfl
      · refine .inr ⟨c :: p, w, r', by rw [hcs, List.cons_append], run_cons_eq_some.2 ⟨t, ht, hp⟩,
          hdepth, hquote, ?_, ?_⟩
        · rw [hstep, hsingle]
          rfl
        · rw [hstep, hsplit]
          rfl

/-- Behind the first alternative the reader stands as at the start. -/
theorem splitTop_cases (halike : Alike {} r) (h : r.run cs = some s) :
    splitTop '|' 0 none cs = [cs] ∨
      ∃ p w r' t, splitTop '|' 0 none cs = p :: splitTop '|' 0 none w ∧ w.length < cs.length ∧
        splitTop '|' 0 none p = [p] ∧ ({} : Reader).run p = some r' ∧ r'.depth = 0 ∧
          r'.quote = none ∧ Alike {} t ∧ t.run w = some s := by
  have hsplit := splitTop_of_run h
  rw [halike.depth, halike.quote] at hsplit
  rcases hsplit with hone | ⟨p, w, r', rfl, hp, hdepth, hquote, hsingle, hparts⟩
  · exact .inl hone
  · obtain ⟨t, ht, hw⟩ := run_append_eq_some.1 h
    obtain rfl : r' = t := Option.some.inj (hp.symm.trans ht)
    obtain ⟨t, hbar, hrun⟩ := run_cons_eq_some.1 hw
    obtain ⟨t', ht', hagain⟩ := step_bar hdepth hquote
    obtain rfl : t = t' := Option.some.inj (hbar.symm.trans ht')
    obtain ⟨s', hs', hend⟩ := halike.symm.run hp
    refine .inr ⟨p, w, s', t, hparts, ?_, hsingle, hs', hend.depth.trans hdepth,
      hend.quote.trans hquote, hagain, hrun⟩
    rw [List.length_append, List.length_cons]
    omega

/-- The alternatives of a type are read like types of their own. -/
theorem run_of_mem_splitTop {r s : Reader} {cs : List Char} (halike : Alike {} r)
    (h : r.run cs = some s) (hdepth : s.depth = 0) :
    ∀ p ∈ splitTop '|' 0 none cs, splitTop '|' 0 none p = [p] ∧
      ∃ r', ({} : Reader).run p = some r' ∧ r'.depth = 0 ∧ (s.quote = none → r'.quote = none) := by
  rcases splitTop_cases halike h with
    hone | ⟨p, w, r', t, hparts, hshort, hsingle, hp, hdepth', hquote, hagain, hrun⟩
  · intro p hp
    rw [hone, List.mem_singleton] at hp
    obtain ⟨s', hs', hend⟩ := halike.symm.run h
    subst hp
    exact ⟨hone, s', hs', hend.depth.trans hdepth, fun hq => hend.quote.trans hq⟩
  · rw [hparts]
    exact List.forall_mem_cons.2 ⟨⟨hsingle, r', hp, hdepth', fun _ => hquote⟩,
      run_of_mem_splitTop hagain hrun hdepth⟩
termination_by cs.length

theorem openQuote_of_mem_dropLast {r s : Reader} {cs : List Char} (halike : Alike {} r)
    (h : r.run cs = some s) : ∀ p ∈ (splitTop '|' 0 none cs).dropLast, openQuote p = none := by
  rcases splitTop_cases halike h with
    hone | ⟨p, w, r', t, hparts, hshort, -, hp, -, hquote, hagain, hrun⟩
  · rw [hone]
    exact nofun
  · rw [hparts, List.dropLast_cons_of_ne_nil (splitTop_ne_nil _ _ _ _)]
    exact List.forall_mem_cons.2 ⟨(quote_of_run hp).symm.trans hquote,
      openQuote_of_mem_dropLast hagain hrun⟩
termination_by cs.length

theorem splitTop_append_bar {p : List Char} (h : r.run p = some r') (hdepth : r'.depth = 0)
    (hquote : r'.quote = none) (hsingle : splitTop '|' r.depth r.quote p = [p]) (w : List Char) :
    splitTop '|' r.depth r.quote (p ++ '|' :: w) = p :: splitTop '|' 0 none w := by
  induction p generalizing r with
  | nil =>
    cases h
    exact splitTop_of_atBar ⟨hquote, hdepth, rfl⟩ w
  | cons c p ih =>
    obtain ⟨t, ht, hrun⟩ := run_cons_eq_some.1 h
    by_cases hbar : r.AtBar c
    · rw [splitTop_of_atBar hbar] at hsingle
      cases hsingle
    · rw [splitTop_of_not_atBar ht hbar] at hsingle
      rcases prepend_eq_singleton hsingle with hnil | hone
      · exact absurd hnil (splitTop_ne_nil _ _ _ _)
      · rw [List.cons_append, splitTop_of_not_atBar ht hbar, ih hrun hone]
        rfl

end Reader

end DocType

end PhpStyle
