import PhpStyle.Proofs.ConstantOperands

/-!
# Operands that change places in a text

Where a constant and a plain operand stand on the two sides of a comparison and change places, the
lexer reads their lexemes at their new places, and those of the rest as before
(`Comparison.Swappable.run`). The two operands, the comparison between them and what stands around
them are read one after the other, each in the state and before the text that the swap gives it.
-/

namespace PhpStyle

open Text Rules.Yoda

namespace Lexer

variable {s t m : Lexer} {c c' : Char} {y y' z z' : List Char} {l p op : Kind × List Char}
  {ls bs cs : List (Kind × List Char)}

theorem lead_cases {k : Kind} (h : precedesOperand k = true ∨ k.isBracket = true) :
    namesMember (some k) = false ∧ k.isEffective = true ∧
      (k.isConjunction = true ∨ k = .openTag ∨ k ∈ leadMarks) := by
  revert h
  cases k <;> decide

theorem stop_spelled {k : Kind} (h : endsOperand k = true ∨ k.isCloser = true) :
    k.isCode = true ∧ k.isEffective = true ∧ (k.isConjunction = true ∨ k.spellings ≠ [] ∧
      ∀ u ∈ k.spellings, ∃ c ∈ u.head?, isNameChar c = false ∧ c ∉ ['\\', '.', '+', '-'] ∧
        isBlank c = false ∧ isTypeStart c = false ∧ isNameStart c = false ∧ c ≠ '[') := by
  revert h
  cases k <;> decide

theorem isEquality_before {k : Kind} (h : k.isEquality = true) :
    namesMember (some k) = false ∧ squareKind (some k) = .openArray := by
  revert h
  cases k <;> decide

theorem Reads.conjunction (h : Reads s [p] z t) (hphp : s.mode = .php)
    (hk : p.1.isConjunction = true) : lower p.2 ∈ conjunctions ∧ namesMember s.last = false := by
  obtain ⟨c, u, hu, hkind, hlength⟩ := h.head_code hphp
  have hform := (s.cutPhp_form c (u ++ (spelled [] ++ z))).conjunction (by rwa [hkind])
  rwa [hlength, ← List.length_cons, ← List.cons_append, List.take_left, ← hu] at hform

theorem Reads.endsName (h : Reads s [p] z t) (hphp : s.mode = .php)
    (hk : p.1.isConjunction = true) : EndsName z := by
  obtain ⟨hne, hletters⟩ := isAlpha_of_conjunction (h.conjunction hphp hk).1
  obtain ⟨c, u, hu⟩ := List.exists_cons_of_ne_nil hne
  have halpha : c.isAlpha = true := hletters c (by simp [hu])
  have hback : c ≠ '\\' := by
    rintro rfl
    cases halpha
  have hname := nameLength_append (fun c hc => isNameChar_of_isAlpha c (hletters c hc)) z
  have hword : wordLength (p.2 ++ z) = nameLength (p.2 ++ z) := by
    rw [hu]
    simp [wordLength, hback]
  have hlength := h.head.2.2
  rw [Lexer.cut, hphp, spelled_nil, List.nil_append, hu, List.cons_append,
    cutPhp_word (isNameStart_of_isAlpha halpha), ← List.cons_append, ← hu] at hlength
  have hpos : nameLength (p.2 ++ z) ≠ 0 := by
    rw [hname, hu, List.length_cons]
    omega
  unfold cutWord at hlength
  simp only [hword, hpos, if_false] at hlength
  have hlength : nameLength (p.2 ++ z) = p.2.length := by
    split at hlength <;> exact hlength
  unfold EndsName
  omega

theorem isValuePart_of_isPlainKind {k : Kind} (h : isPlainKind k = true) (hcode : k.isCode = true) :
    k.isValuePart = true := by
  revert h hcode
  cases k <;> decide

theorem Reads.php_of_closed (h : Reads s ls z t) (hphp : s.mode = .php)
    (hk : ∀ l ∈ ls, l.1 ≠ .closeTag ∧ l.1 ≠ .docOpen) :
    t.mode = .php ∧ ∀ l ∈ ls, l.1.isCode = true := by
  induction h with
  | nil s z => exact ⟨hphp, by simp⟩
  | cons hu hcut hlength hrest ih =>
    rename_i s t cut u z ls
    obtain ⟨⟨htag, hdoc⟩, hothers⟩ := List.forall_mem_cons.1 hk
    obtain ⟨c, v, rfl⟩ := List.exists_cons_of_ne_nil hu
    rw [Lexer.cut, hphp] at hcut
    have hform := s.cutPhp_form c (v ++ (spelled ls ++ z))
    rw [show s.cutPhp (c :: (v ++ (spelled ls ++ z))) = cut from hcut] at hform
    obtain ⟨hmode, hcode⟩ := ih (hform.mode_eq htag hdoc) hothers
    exact ⟨hmode, List.forall_mem_cons.2 ⟨hform.isCode, hcode⟩⟩

theorem levelAfter_of_plain {ks : List Kind} (h : ∀ k ∈ ks, k.isBracket = false) (depth : Nat) :
    levelAfter depth ks = some depth := by
  induction ks with
  | nil => rfl
  | cons k ks ih =>
    obtain ⟨hk, hks⟩ := List.forall_mem_cons.1 h
    obtain ⟨hopen, hclose⟩ := Bool.or_eq_false_iff.1 hk
    rw [levelAfter, hopen, hclose]
    exact ih hks

/-- The operands may change places before a word that touches them. -/
structure Withstands (word : List Char) (left right : List (Kind × List Char)) : Prop where
  left : ∀ l ∈ left.getLast?, l.1 = .closeArray ∨ withstands word l.2 = true
  right : ∃ ls l, right = ls ++ [l] ∧ l.1 = .closeSquare

/-- What may stand behind the operands: a mark or a word behind blanks and comments, or only these. -/
inductive Behind (left right rest : List (Kind × List Char)) : Prop
  | stop {bs post : List (Kind × List Char)} {stop : Kind × List Char}
      (hrest : rest = bs ++ stop :: post) (hbs : ∀ l ∈ bs, l.1.isTrivia = true)
      (hstop : endsOperand stop.1 = true ∨ stop.1.isCloser = true)
      (htouch : stop.1.isConjunction = true → bs = [] → Withstands stop.2 left right)
      (henum : stop.1.isConjunction = true → ∀ l, left = [l] → lower l.2 ≠ "enum".toList)
  | ends (htrivia : ∀ l ∈ rest, l.1.isTrivia = true)
      (hsealed : rest = [] → ∀ l, right.getLast? = some l → l.1 = .quoted → isSealed l.2 = true)

/-- A text before which the operands are read as before a semicolon. -/
inductive Apart (left right : List (Kind × List Char)) (z : List Char) : Prop
  | halts (hz : Halts z)
      (hend : z = [] → ∀ l, right.getLast? = some l → l.1 = .quoted → isSealed l.2 = true)
      (hview : ∀ l, left = [l] → lower l.2 = "enum".toList →
        (trimStart z).head?.any isNameStart = false)
  | word {w v : List Char} (heq : z = w ++ v) (hne : w ≠ []) (hw : EndsDecimal w)
      (h : Withstands w left right)

theorem halts_semicolon : Halts [';'] := by
  rintro c ⟨⟩
  decide

section Behind

variable {left right rest : List (Kind × List Char)}

theorem Behind.apart (hrest : Behind left right rest) (h : s.run (spelled rest) = rest)
    (hphp : s.mode = .php) : Apart left right (spelled rest) := by
  cases hrest with
  | @stop bs post stop heq hbs hstop htouch henum =>
    obtain ⟨hcode, -, hforms⟩ := stop_spelled hstop
    have hsplit : rest = bs ++ [stop] ++ post := by simp [heq]
    rw [hsplit] at h
    obtain ⟨m, hreads, -⟩ := exists_reads h
    obtain ⟨r, hbefore, hmark⟩ := hreads.of_append
    have hstop_php : r.mode = .php := mode_of_isCode (by rw [hmark.head.2.1]; exact hcode)
    have htext : spelled rest = spelled bs ++ (stop.2 ++ spelled post) := by
      simp [heq, spelled_append]
    rw [spelled_cons, spelled_nil, List.append_nil] at hbefore
    rw [htext]
    rcases hforms with hword | ⟨hspellings, hforms⟩
    · have hconjunction := (hmark.conjunction hstop_php hword).1
      obtain ⟨hne, -⟩ := isAlpha_of_conjunction hconjunction
      by_cases hnil : bs = []
      · subst hnil
        exact .word (w := stop.2) rfl hne (first_of_conjunction hconjunction)
          (htouch hword rfl)
      · refine .halts (hbefore.halts_of_trivia hphp hbs fun h => absurd h hnil) (fun hempty => ?_)
          fun l hl hl' => absurd hl' (henum hword l hl)
        exact absurd (List.append_eq_nil_iff.1 (List.append_eq_nil_iff.1 hempty).2).1 hne
    · obtain ⟨e, he, hname, hmarks, hblank, -, hstart, -⟩ :=
        hforms stop.2 (hmark.spelling hstop_php hspellings)
      obtain ⟨u, hu⟩ := List.head?_eq_some_iff.1 he
      rw [hu, List.cons_append] at hbefore ⊢
      refine .halts (hbefore.halts_of_trivia hphp hbs fun _ d hd => ?_) (fun hempty => ?_)
        fun _ _ _ => hbefore.view_of_trivia hphp hbs ?_
      · obtain rfl : e = d := Option.some.inj hd
        exact ⟨hname, hmarks⟩
      · exact absurd (List.append_eq_nil_iff.1 hempty).2 (List.cons_ne_nil _ _)
      · simp [trimStart, hblank, hstart]
  | ends htrivia hsealed =>
    have h : s.run (spelled rest) = rest ++ [] := by rw [h, List.append_nil]
    obtain ⟨m, hreads, -⟩ := exists_reads h
    have htext : spelled rest = spelled rest ++ spelled [] := by simp
    rw [htext]
    refine .halts (hreads.halts_of_trivia hphp htrivia fun _ => by simp [Halts]) (fun hempty => ?_)
      fun _ _ _ => hreads.view_of_trivia hphp htrivia rfl
    refine hsealed ?_
    by_contra hne
    obtain ⟨l, ls, rfl⟩ := List.exists_cons_of_ne_nil hne
    rw [spelled_cons, List.append_assoc] at hempty
    exact hreads.head.1 (List.append_eq_nil_iff.1 hempty).1

theorem Behind.relast (hrest : Behind left right rest) (h : s.run (spelled rest) = rest)
    (htype : precedesType s.last = false) {last : Option Kind} (hlast : namesMember last = false)
    (htype' : precedesType last = false) :
    ({ s with last := last } : Lexer).run (spelled rest) = rest := by
  cases hrest with
  | @stop bs post stop heq hbs hstop =>
    obtain ⟨hcode, heffective, hforms⟩ := stop_spelled hstop
    have hsplit : rest = bs ++ [stop] ++ post := by simp [heq]
    rw [hsplit] at h ⊢
    obtain ⟨m, hreads, hpost⟩ := exists_reads h
    have hrelast : Reads { s with last := last } (bs ++ [stop]) (spelled post) m := by
      refine hreads.relast ⟨bs, stop, [], rfl, hbs, heffective, fun d hd => ?_⟩
      obtain ⟨r, hbefore, hmark⟩ := hreads.of_append
      have hphp : r.mode = .php := mode_of_isCode (by rw [hmark.head.2.1]; exact hcode)
      have hquestion : d = '?' → precedesType last = precedesType s.last :=
        fun _ => htype'.trans htype.symm
      rcases hforms with hword | ⟨hspellings, hforms⟩
      · obtain ⟨hconjunction, hmember⟩ := hmark.conjunction hphp hword
        rw [(hbefore.frame_of_trivia hbs).1] at hmember
        refine ⟨fun _ => hlast.trans hmember.symm, hquestion, ?_⟩
        rintro rfl
        exact absurd ((isAlpha_of_conjunction hconjunction).2 '[' (List.mem_of_mem_head? hd))
          (by decide)
      · obtain ⟨e, he, -, -, -, htypeStart, -, hsquare⟩ :=
          hforms stop.2 (hmark.spelling hphp hspellings)
        obtain rfl : e = d := Option.some.inj (he.symm.trans hd)
        exact .of_mark htypeStart hquestion hsquare
    rw [spelled_append, hrelast.run, hpost]
  | ends htrivia =>
    have h : s.run (spelled rest) = rest ++ [] := by rw [h, List.append_nil]
    obtain ⟨m, hreads, -⟩ := exists_reads h
    have hnil : ∀ r : Lexer, r.run [] = [] := fun r => by rw [Lexer.run, if_pos rfl]
    have hrun' := (hreads.relast_trivia htrivia last).run
    rwa [spelled_nil, List.append_nil, hnil, List.append_nil] at hrun'

end Behind

/-- A text with a comparison in it: what stands before, between and behind the two operands. -/
structure Comparison where
  pre : List (Kind × List Char)
  lead : Kind × List Char
  gap : List (Kind × List Char)
  left : List (Kind × List Char)
  before : List (Kind × List Char)
  op : Kind × List Char
  after : List (Kind × List Char)
  right : List (Kind × List Char)
  rest : List (Kind × List Char)

attribute [ext] Lexer

namespace Comparison

variable {q : Comparison} {m₁ m₂ m₃ m₄ : Lexer}

def lexemes (q : Comparison) : List (Kind × List Char) :=
  q.pre ++ q.lead :: (q.gap ++ (q.left ++ (q.before ++ q.op :: (q.after ++ (q.right ++ q.rest)))))

/-- What stands between the operands. -/
def middle (q : Comparison) : List (Kind × List Char) :=
  q.before ++ q.op :: q.after

/-- The operands in each other's place. -/
def swapped (q : Comparison) : Comparison :=
  { q with left := q.right, right := q.left }

/-- A constant on the left, a plain operand on the right, and both set off from what is around
them. -/
structure Swappable (q : Comparison) : Prop where
  leads : precedesOperand q.lead.1 = true ∨ q.lead.1.isBracket = true
  leadWord : q.lead.1.isConjunction = true → q.gap = [] →
    ∀ l ∈ q.right.head?, ∀ c ∈ l.2.head?, (isNameChar c = false ∧ c ≠ '\\') ∧
      (isQuoteMark c = true → ∀ w, w <:+ spelled (q.pre ++ [q.lead]) →
        startsWith "<<<".toList w = true → '\n' ∈ w)
  ternary : q.lead.1 = .ternary → ∀ a l b, q.pre = a ++ l :: b → l.1.isEffective = true →
    (∀ l ∈ b, l.1.isTrivia = true) → precedesType (some l.1) = false
  gap : ∀ l ∈ q.gap, l.1.isTrivia = true
  constant : ConstantLexemes q.left
  before : ∀ l ∈ q.before, l.1.isTrivia = true
  compares : q.op.1.isEquality = true
  after : ∀ l ∈ q.after, l.1.isTrivia = true
  plain : ∀ l ∈ q.right, isPlainKind l.1 = true
  first : ∃ l rest, q.right = l :: rest ∧ (l.1.startsOperand = true ∧ l.1 ≠ .openArray) ∧
    ∀ c ∈ l.2.head?, isBlank c = false
  last : ∀ l, q.right.getLast? = some l → l.1 ≠ .blank
  level : ∃ depth, levelAfter 0 (q.right.map (·.1)) = some depth ∧
    (depth ≠ 0 → ∀ l ∈ q.left, l.1.isBracket = false)
  behind : Behind q.left q.right q.rest

namespace Swappable

theorem reads_lead (hq : q.Swappable) (h : Reads {} (q.pre ++ [q.lead]) (spelled q.gap ++ y) m₁)
    (hgap : Reads m₁ q.gap y m₂) (hgap' : Reads m₁ q.gap y' m₂) (hphp : m₁.mode = .php)
    (hy : Starts y) (hy' : Starts y') (hblank : ∀ c ∈ y'.head?, isBlank c = false)
    (htouch : q.lead.1.isConjunction = true → q.gap = [] → EndsName y' ∧
      ∀ c ∈ y'.head?, isQuoteMark c = true → ∀ w, w <:+ spelled (q.pre ++ [q.lead]) →
        startsWith "<<<".toList w = true → '\n' ∈ w)
    (hcast : Uncast (spelled q.gap ++ y')) :
    Reads {} (q.pre ++ [q.lead]) (spelled q.gap ++ y') m₁ := by
  obtain ⟨-, -, hlead⟩ := lead_cases hq.leads
  rcases hlead with hword | htag | hmark
  · obtain ⟨m, -, hm⟩ := h.of_append
    have hcode : ∀ {k : Kind}, k.isConjunction = true → k.isCode = true := by
      intro k
      cases k <;> decide
    have hm_php : m.mode = .php := mode_of_isCode (by rw [hm.head.2.1]; exact hcode hword)
    have hconjunction := (hm.conjunction hm_php hword).1
    by_cases hnil : q.gap = []
    · obtain ⟨hends, hquote⟩ := htouch hword hnil
      rw [hnil, spelled_nil, List.nil_append] at h hm ⊢
      exact h.retail_touched hphp hconjunction (hy.aloof (hm.endsName hm_php hword))
        (hy'.aloof hends) hblank hquote
    · obtain ⟨e, v, rfl, -⟩ := hy'.solid.head
      exact h.retail_word hgap hphp hq.gap hnil hconjunction (hblank e rfl) hcast
  · exact h.retail_openTag htag _
  · refine h.retail_mark hmark (fun e he => ?_) hcast fun hk r hr => ?_
    · rcases hgap'.head_behind_trivia hphp hq.gap he with he | ⟨-, he⟩
      · have hheads : ∀ c ∈ [' ', '\t', '\r', '\n', '#', '/'], c ∉ extensions := by decide
        exact hheads e he
      · exact hy'.next e he
    · rcases hr.last_cases with ⟨-, hlast⟩ | ⟨a, l, b, hpre, hb, hl, hlast⟩
      · rw [hlast]
        rfl
      · rw [hlast]
        exact hq.ternary hk a l b hpre hl hb

theorem lead_php (hq : q.Swappable) (h : Reads s [q.lead] z t) :
    t.mode = .php ∧ namesMember t.last = false := by
  obtain ⟨hmember, heffective, hlead⟩ := lead_cases hq.leads
  refine ⟨?_, by rwa [h.last_of_single heffective]⟩
  by_cases htag : q.lead.1 = .openTag
  · exact (h.openTag htag).2
  · have hcode : q.lead.1.isCode = true ∧ q.lead.1 ≠ .closeTag ∧ q.lead.1 ≠ .docOpen := by
      have hleads := hq.leads
      revert hleads htag
      cases q.lead.1 <;> decide
    exact (h.mode_of_single hcode.1 hcode.2.1 hcode.2.2).2

theorem right_php (hq : q.Swappable) (h : Reads s q.right z t) :
    s.mode = .php ∧ t.mode = .php ∧ ∀ l ∈ q.right, l.1.isValuePart = true := by
  obtain ⟨first, rest, hfirst, ⟨hstarts, -⟩, -⟩ := hq.first
  have hphp : s.mode = .php := by
    rw [hfirst] at h
    exact h.mode_of_starts hstarts
  have hclosed : ∀ l ∈ q.right, l.1 ≠ .closeTag ∧ l.1 ≠ .docOpen := by
    intro l hl
    have hplain := hq.plain l hl
    constructor <;> intro hk <;> rw [hk] at hplain <;> cases hplain
  obtain ⟨hmode, hcode⟩ := h.php_of_closed hphp hclosed
  exact ⟨hphp, hmode, fun l hl => isValuePart_of_isPlainKind (hq.plain l hl) (hcode l hl)⟩

/-- Where the right operand stands, it is read as before a semicolon. -/
theorem reads_right_alone (hq : q.Swappable) (h : Reads s q.right z t)
    (hz : Apart q.left q.right z) : Reads s q.right [';'] t := by
  obtain ⟨-, hmode, hvalue⟩ := hq.right_php h
  cases hz with
  | halts hz hend _ =>
    exact h.retail_value hmode hvalue hq.last hz halts_semicolon hend rfl
  | @word w v heq hne hw hstays =>
    rw [heq] at h
    obtain ⟨ls, l, hright, hl⟩ := hstays.right
    rw [hright] at h ⊢
    exact h.retail_bracket (by rw [hl]; rfl) (by rw [hl]; rfl) _

theorem reads_right (hq : q.Swappable) (h : Reads s q.right z t)
    (hmember : namesMember s.last = false) (hz : Apart q.left q.right z)
    (hy' : Halts (c' :: z')) (hview : (trimStart (c' :: z')).head?.any isNameStart = false)
    {depth : Nat} (hlevel : levelAfter 0 (q.right.map (·.1)) = some depth) (squares : List Kind)
    {last : Option Kind} (hlast : namesMember last = false) :
    t.squares = List.replicate depth .openSquare ++ s.squares ∧ precedesType t.last = false ∧
      Reads { s with squares := squares, last := last } q.right (c' :: z')
        { t with squares := List.replicate depth .openSquare ++ squares } := by
  obtain ⟨l, rest, hright, ⟨hfirst, harray⟩, -⟩ := hq.first
  obtain ⟨-, hmode, hvalue⟩ := hq.right_php h
  have hindex : IndexOnly q.right := by
    intro l hl hbracket
    have hk := hvalue l hl
    revert hk hbracket
    cases l.1 <;> decide
  have hretailed : Reads s q.right (c' :: z') t :=
    (hq.reads_right_alone h hz).retail_value hmode hvalue hq.last halts_semicolon hy'
      (fun hnil => absurd hnil (List.cons_ne_nil _ _)) hview
  obtain ⟨hsquares, hresquared⟩ :=
    hretailed.resquare hlevel hindex (List.nil_append _).symm squares
  have heffective := Kind.isEffective_of_startsOperand hfirst
  refine ⟨hsquares, ?_, ?_⟩
  · rcases h.last_cases with ⟨htrivia, -⟩ | ⟨a, m, b, hm, -, hmeffective, hlast⟩
    · have hk := htrivia l (by rw [hright]; exact List.mem_cons_self)
      rw [Kind.isEffective, hk] at heffective
      cases heffective
    · have hk := hq.plain m (by rw [hm]; simp)
      rw [hlast]
      revert hk hmeffective
      cases m.1 <;> decide
  · refine hresquared.relast ⟨[], l, rest, hright, by simp, heffective, fun d hd => ?_⟩
    rw [hright] at h
    exact h.unseen_of_operand hfirst hd hmember hlast fun hk => absurd hk harray

/-- The comparison is read between the operands. -/
theorem reads_middle (hq : q.Swappable) (h : Reads s q.middle y t)
    (hphp : t.mode = .php) (hy : Solid y) (hy' : Starts y') (squares : List Kind)
    (last : Option Kind) : t.squares = s.squares ∧ t.last = some q.op.1 ∧
      Reads { s with squares := squares, last := last } q.middle y'
        { t with squares := squares } := by
  obtain ⟨hcode, htrivia, hbracket, hspellings, hforms⟩ := isEquality_spelled hq.compares
  have heffective : q.op.1.isEffective = true := by rw [Kind.isEffective, htrivia]; rfl
  have hunbracketed : ∀ l ∈ q.before ++ q.op :: q.after, l.1.isBracket = false := by
    have htriv : ∀ {k : Kind}, k.isTrivia = true → k.isBracket = false := by
      intro k
      cases k <;> decide
    intro l hl
    rcases List.mem_append.1 hl with hl | hl
    · exact htriv (hq.before l hl)
    · rcases List.mem_cons.1 hl with rfl | hl
      · exact hbracket
      · exact htriv (hq.after l hl)
  obtain ⟨m₁, -, hrest⟩ := h.of_append
  have hrest : Reads m₁ ([q.op] ++ q.after) y t := hrest
  obtain ⟨m₂, hop, hafter⟩ := hrest.of_append
  have hlast : t.last = some q.op.1 :=
    (hafter.frame_of_trivia hq.after).1.trans (hop.last_of_single heffective)
  have hphp₁ : m₁.mode = .php := mode_of_isCode (by rw [hop.head.2.1]; exact hcode)
  obtain ⟨-, -, e, he, hmark⟩ := hforms q.op.2 (hop.spelling hphp₁ hspellings)
  have hretailed := h.retail_comparison hphp hq.compares hq.before hq.after hy hy'
  obtain ⟨hsquares, hresquared⟩ := hretailed.resquare
    (levelAfter_of_plain (List.forall_mem_map.2 hunbracketed) 0)
    (fun l hl hb => by rw [hunbracketed l hl] at hb; cases hb) (List.nil_append _).symm squares
  refine ⟨hsquares, hlast, ?_⟩
  refine hresquared.relast ⟨q.before, q.op, q.after, rfl, hq.before, heffective, fun d hd => ?_⟩
  obtain rfl : e = d := Option.some.inj (he.symm.trans hd)
  have hmarks : ∀ c ∈ ['=', '!', '<'], isTypeStart c = false ∧ c ≠ '?' ∧ c ≠ '[' := by decide
  obtain ⟨htype, hquestion, hsquare⟩ := hmarks e hmark
  exact .of_mark htype (fun h => absurd h hquestion) hsquare

theorem left_php (hq : q.Swappable) (h : Reads s q.left z t) :
    s.mode = .php ∧ t.mode = .php ∧ namesMember t.last = false ∧ precedesType t.last = false := by
  obtain ⟨first, rest, hfirst, hstarts⟩ := hq.constant.exists_first
  obtain ⟨front, last, hlast, hends⟩ := hq.constant.exists_last
  have hendsCode : last.1.isCode = true ∧ last.1.isEffective = true ∧ last.1 ≠ .closeTag ∧
      last.1 ≠ .docOpen ∧ namesMember (some last.1) = false ∧
      precedesType (some last.1) = false := by
    revert hends
    cases last.1 <;> decide
  obtain ⟨hcode, heffective, htag, hdoc, hnames, htype⟩ := hendsCode
  have hphp : s.mode = .php := by
    rw [hfirst] at h
    exact h.mode_of_starts hstarts
  rw [hlast] at h
  obtain ⟨m, -, hm⟩ := h.of_append
  have htlast := hm.last_of_single heffective
  exact ⟨hphp, (hm.mode_of_single hcode htag hdoc).2, by rwa [htlast], by rwa [htlast]⟩

theorem reads_left (hq : q.Swappable) (h : Reads s q.left (c :: z) t)
    (hmember : namesMember s.last = false) (hy : Halts (c :: z)) (hz : Apart q.left q.right z') :
    Reads { s with last := some q.op.1 } q.left z' t := by
  obtain ⟨first, rest, hfirst, hstarts⟩ := hq.constant.exists_first
  obtain ⟨hnames, harray⟩ := isEquality_before hq.compares
  have halone : Reads s q.left [';'] t :=
    hq.constant.retail h hy halts_semicolon fun _ _ _ => rfl
  have hretailed : Reads s q.left z' t := by
    cases hz with
    | halts hz _ hview => exact hq.constant.retail halone halts_semicolon hz hview
    | word heq hne hw hstays =>
      rw [heq]
      exact hq.constant.retail_word halone hw hne hstays.left _
  refine hretailed.relast ⟨[], first, rest, hfirst, by simp,
    Kind.isEffective_of_startsOperand hstarts, fun d hd => ?_⟩
  rw [hfirst] at hretailed
  exact hretailed.unseen_of_operand hstarts hd hmember hnames fun _ => harray

theorem middle_text (hq : q.Swappable) (h : Reads s q.middle y t)
    (hphp : s.mode = .php) : ∃ c z, spelled q.middle ++ y = c :: z ∧
      Halts (c :: z) ∧ (trimStart (c :: z)).head?.any isNameStart = false ∧ Uncast (c :: z) := by
  obtain ⟨m, hbefore, hrest⟩ := h.of_append
  have hrest : Reads m ([q.op] ++ q.after) y t := hrest
  obtain ⟨_, hop, -⟩ := hrest.of_append
  obtain ⟨hcode, -, -, hspellings, hforms⟩ := isEquality_spelled hq.compares
  have hphp₁ : m.mode = .php := mode_of_isCode (by rw [hop.head.2.1]; exact hcode)
  obtain ⟨-, -, e, he, hmark⟩ := hforms q.op.2 (hop.spelling hphp₁ hspellings)
  obtain ⟨u, hu⟩ := List.head?_eq_some_iff.1 he
  have hmarks : ∀ c ∈ ['=', '!', '<'], (isNameChar c = false ∧ c ∉ ['\\', '.', '+', '-']) ∧
      isBlank c = false ∧ isNameStart c = false ∧ isCastChar c = false ∧ c ≠ ')' := by decide
  obtain ⟨hhalts, hblank, hname, hcast, hparen⟩ := hmarks e hmark
  have hoperator : spelled (q.op :: q.after) ++ y = e :: (u ++ (spelled q.after ++ y)) := by
    simp [hu]
  have htext : spelled q.middle ++ y =
      spelled q.before ++ e :: (u ++ (spelled q.after ++ y)) := by
    rw [middle, spelled_append, List.append_assoc, hoperator]
  obtain ⟨c, z, hcz⟩ : ∃ c z, spelled q.before ++ e :: (u ++ (spelled q.after ++ y)) = c :: z :=
    List.exists_cons_of_ne_nil (by simp)
  rw [hoperator] at hbefore
  refine ⟨c, z, htext.trans hcz, ?_⟩
  rw [← hcz]
  refine ⟨hbefore.halts_of_trivia hphp hq.before fun _ d hd => ?_,
    hbefore.view_of_trivia hphp hq.before ?_,
    hbefore.uncast hphp (fun l hl => .inl (hq.before l hl)) (.of_head hcast hparen)⟩
  · obtain rfl : e = d := Option.some.inj hd
    exact hhalts
  · simp [trimStart, hblank, hname]

theorem operands_php (hq : q.Swappable)
    (h : Reads s (q.left ++ (q.middle ++ q.right)) z t) :
    s.mode = .php ∧ t.mode = .php := by
  obtain ⟨m₂, hleft, h⟩ := h.of_append
  obtain ⟨m₃, -, hright⟩ := h.of_append
  exact ⟨(hq.left_php hleft).1, (hq.right_php hright).2.1⟩

/-- Brackets that the right operand leaves open do not matter to a left one without brackets. -/
theorem reads_left_open {depth : Nat} (hopen : depth ≠ 0 → ∀ l ∈ q.left, l.1.isBracket = false)
    (h : Reads s q.left z m₂) (hmode : t.mode = m₂.mode)
    (hsquares : t.squares = List.replicate depth .openSquare ++ m₂.squares) :
    Reads { s with squares := List.replicate depth .openSquare ++ s.squares } q.left z
      { t with last := m₂.last } := by
  rcases Nat.eq_zero_or_pos depth with rfl | hpos
  · rwa [show ({ t with last := m₂.last } : Lexer) = m₂ from Lexer.ext hmode hsquares rfl]
  · have hplain := hopen hpos.ne'
    obtain ⟨hsame, hreads⟩ := h.resquare (levelAfter_of_plain (List.forall_mem_map.2 hplain) 0)
      (fun l hl hb => by rw [hplain l hl] at hb; cases hb) (List.nil_append _).symm
      (List.replicate depth .openSquare ++ s.squares)
    have hsquares : t.squares = List.replicate depth .openSquare ++ s.squares := by
      rw [hsquares, hsame]
      rfl
    rwa [show ({ t with last := m₂.last } : Lexer) =
      { m₂ with squares := List.replicate depth .openSquare ++ s.squares } from
      Lexer.ext hmode hsquares rfl]

/-- The comparison is read with the operands in each other's place. Of the lexer's state behind it
only the last kind is another one. -/
theorem reads_operands (hq : q.Swappable)
    (h : Reads s (q.left ++ (q.middle ++ q.right)) z t)
    (hmember : namesMember s.last = false) (hz : Apart q.left q.right z) :
    precedesType t.last = false ∧
      Uncast (spelled (q.right ++ (q.middle ++ q.left)) ++ z) ∧
      ∃ last, namesMember last = false ∧ precedesType last = false ∧
        Reads s (q.right ++ (q.middle ++ q.left)) z { t with last := last } := by
  obtain ⟨m₂, hleft, h⟩ := h.of_append
  obtain ⟨m₃, hmiddle, hright⟩ := h.of_append
  obtain ⟨hphp, hphp₂, hmember₂, htype₂⟩ := hq.left_php hleft
  obtain ⟨hphp₃, hphp₄, hvalue⟩ := hq.right_php hright
  obtain ⟨first, rest, hfirst, ⟨hstarts, -⟩, -⟩ := hq.first
  obtain ⟨first', rest', hfirst', hstarts'⟩ := hq.constant.exists_first
  -- the constant on the right
  have hleft' : Reads { s with last := some q.op.1 } q.left z m₂ := by
    obtain ⟨e, y, htext, hy, -, -⟩ := hq.middle_text hmiddle hphp₂
    rw [spelled_append, List.append_assoc, htext] at hleft
    exact hq.reads_left hleft hmember hy hz
  -- the comparison between
  have hsolid : Solid (spelled q.right ++ z) := by
    rw [hfirst] at hright ⊢
    exact (hright.starts hstarts).solid
  have hstartsLeft : Starts (spelled q.left ++ z) := by
    rw [hfirst'] at hleft' ⊢
    exact hleft'.starts hstarts'
  obtain ⟨depth, hlevel, hunbracketed⟩ := hq.level
  obtain ⟨hsquares₃, hlast₃, hmiddle'⟩ := hq.reads_middle hmiddle hphp₃ hsolid hstartsLeft
    (List.replicate depth .openSquare ++ s.squares) t.last
  obtain ⟨e, y, htext, hy, hyview, hcast⟩ := hq.middle_text hmiddle' hphp₂
  -- the operand on the left
  have hequality : namesMember m₃.last = false := by
    rw [hlast₃]
    exact (isEquality_before hq.compares).1
  obtain ⟨hsquares₄, htype₄, hright'⟩ :=
    hq.reads_right hright hequality hz hy hyview hlevel s.squares hmember
  have hbefore : ({ m₃ with squares := s.squares, last := s.last } : Lexer) = s :=
    Lexer.ext (hphp₃.trans hphp.symm) rfl rfl
  have hbetween : ({ t with squares := List.replicate depth .openSquare ++ s.squares } : Lexer) =
      { m₂ with squares := List.replicate depth .openSquare ++ s.squares, last := t.last } :=
    Lexer.ext (hphp₄.trans hphp₂.symm) rfl rfl
  have hbehind : ({ m₃ with squares := List.replicate depth .openSquare ++ s.squares } : Lexer) =
      { s with squares := List.replicate depth .openSquare ++ s.squares, last := some q.op.1 } :=
    Lexer.ext (hphp₃.trans hphp.symm) rfl hlast₃
  have hleft'' := reads_left_open hunbracketed hleft' (hphp₄.trans hphp₂.symm)
    (hsquares₄.trans (by rw [hsquares₃]))
  rw [hbefore, hbetween, ← htext, ← List.append_assoc, ← spelled_append] at hright'
  rw [hbehind] at hmiddle'
  refine ⟨htype₄, ?_, m₂.last, hmember₂, htype₂, ?_⟩
  · rw [spelled_append, List.append_assoc]
    refine hright'.uncast hphp (fun l hl => .inr (hvalue l hl)) ?_
    rwa [spelled_append, List.append_assoc, htext]
  · exact hright'.append (hmiddle'.append hleft'')

/-- The lexemes of the text in which the operands have changed places. -/
theorem run (hq : q.Swappable) {text : List Char} (hrun : ({} : Lexer).run text = q.lexemes) :
    ({} : Lexer).run (spelled q.swapped.lexemes) = q.swapped.lexemes := by
  have hsplit : ∀ q : Comparison, q.lexemes = (q.pre ++ [q.lead]) ++ (q.gap ++ (q.left ++
      (q.middle ++ q.right))) ++ q.rest := by
    intro q
    simp [lexemes, middle]
  rw [hsplit] at hrun
  obtain ⟨t, hreads, hbehind⟩ := exists_reads hrun
  obtain ⟨m₀, hlead, hreads⟩ := hreads.of_append
  obtain ⟨m₁, hgap, hoperands⟩ := hreads.of_append
  obtain ⟨_, -, hm⟩ := hlead.of_append
  obtain ⟨hphp₀, hmember₀⟩ := hq.lead_php hm
  have hmember : namesMember m₁.last = false := by rwa [(hgap.frame_of_trivia hq.gap).1]
  obtain ⟨hphp₁, hphp⟩ := hq.operands_php hoperands
  obtain ⟨htype, hcast, last, hlastMember, hlastType, hoperands'⟩ :=
    hq.reads_operands hoperands hmember (hq.behind.apart hbehind hphp)
  obtain ⟨first, others, hfirst, ⟨hstarts, -⟩, hblank⟩ := hq.first
  obtain ⟨first', others', hfirst', hstarts'⟩ := hq.constant.exists_first
  have hhead : (spelled (q.right ++ (q.middle ++ q.left)) ++ spelled q.rest).head? =
      first.2.head? := by
    rw [hfirst] at hoperands' ⊢
    obtain ⟨c, u, hu⟩ := List.exists_cons_of_ne_nil hoperands'.head.1
    simp [hu]
  have hstartsOld : Starts (spelled (q.left ++ (q.middle ++ q.right)) ++ spelled q.rest) := by
    rw [hfirst'] at hoperands ⊢
    exact hoperands.starts hstarts'
  have hstartsNew : Starts (spelled (q.right ++ (q.middle ++ q.left)) ++ spelled q.rest) := by
    rw [hfirst] at hoperands' ⊢
    exact hoperands'.starts hstarts
  have hgap' := hgap.retail_trivia hq.gap hphp₁ hstartsOld.solid hstartsNew.solid
  have hlead' : Reads {} (q.pre ++ [q.lead])
      (spelled q.gap ++ (spelled (q.right ++ (q.middle ++ q.left)) ++ spelled q.rest)) m₀ := by
    rw [spelled_append, List.append_assoc] at hlead
    refine hq.reads_lead hlead hgap hgap' hphp₀ hstartsOld hstartsNew (fun e he => ?_)
      (fun hword hnil => ?_) (hgap'.uncast hphp₀ (fun l hl => .inl (hq.gap l hl)) hcast)
    · exact hblank e (hhead ▸ he)
    · have htouch := hq.leadWord hword hnil first (by rw [hfirst]; rfl)
      exact ⟨.of_head fun e he => (htouch e (hhead ▸ he)).1,
        fun e he => (htouch e (hhead ▸ he)).2⟩
  rw [← List.append_assoc, ← spelled_append] at hlead'
  have hbehind' := hq.behind.relast hbehind htype hlastMember hlastType
  have hwhole := (hlead'.append (hgap'.append hoperands')).run
  rw [hbehind', ← spelled_append] at hwhole
  rw [hsplit]
  exact hwhole

end Swappable

end Comparison

end Lexer

end PhpStyle
