import PhpStyle.Proofs.SelectedAlternatives
import PhpStyle.Proofs.WrittenValues

/-!
# Types as they are written

Names, intersections and unions, each with its text and with the lexemes that the lexer reads there
(`TypeText.exists_lexemes`). A declared type with such a text is nullable exactly if it has a question mark
or `null` among its alternatives (`TypeText.ofText?_text`).
-/

namespace PhpStyle.Written

open Text Lexer

/-- The kinds of the names of types. -/
def typeNames : List Kind :=
  [.name, .kwArray, .kwStatic, .litTrue, .litFalse, .litNull]

/-- The kinds of the parts of types, apart from the sign of an intersection. -/
def typeParts : List Kind :=
  typeNames ++ [.nullable, .ternary, .bitwiseOr, .openParen, .closeParen]

/-- Lexemes of a type: behind the sign of an intersection stands a name. -/
inductive TypeLexemes : List (Kind × List Char) → Prop
  | nil : TypeLexemes []
  | part {l : Kind × List Char} {ls : List (Kind × List Char)} (hl : l.1 ∈ typeParts)
      (h : TypeLexemes ls) : TypeLexemes (l :: ls)
  | both {l m : Kind × List Char} {ls : List (Kind × List Char)} (hl : l.1 = .bitwiseAnd)
      (hm : m.1 ∈ typeNames) (h : TypeLexemes (m :: ls)) : TypeLexemes (l :: m :: ls)

theorem TypeLexemes.append {ls ms : List (Kind × List Char)} (hls : TypeLexemes ls)
    (hms : TypeLexemes ms) : TypeLexemes (ls ++ ms) := by
  induction hls with
  | nil => exact hms
  | part hl _ ih => exact .part hl ih
  | both hl hm _ ih => exact .both hl hm ih

/-- Lists of lexemes with `sep` between them. -/
def joined (sep : Kind × List Char) : List (List (Kind × List Char)) → List (Kind × List Char)
  | [] => []
  | [ls] => ls
  | ls :: ms :: rest => ls ++ sep :: joined sep (ms :: rest)

theorem spelled_joined (sep : Kind × List Char) (items : List (List (Kind × List Char))) :
    spelled (joined sep items) = joinWith sep.2 (items.map spelled) := by
  fun_induction joined sep items with
  | case1 => rfl
  | case2 ls => rfl
  | case3 ls ms rest ih =>
    have hjoin : joinWith sep.2 ((ls :: ms :: rest).map spelled) =
        spelled ls ++ sep.2 ++ joinWith sep.2 ((ms :: rest).map spelled) := rfl
    rw [spelled_append, spelled_cons, ih, hjoin, List.append_assoc]

theorem exists_joined_cons (sep : Kind × List Char) (ls : List (Kind × List Char))
    (items : List (List (Kind × List Char))) : ∃ ms, joined sep (ls :: items) = ls ++ ms := by
  cases items with
  | nil => exact ⟨[], (List.append_nil ls).symm⟩
  | cons ms items => exact ⟨_, rfl⟩

/-- A type, or an alternative of one, as lexemes. -/
structure TypePiece (ls : List (Kind × List Char)) : Prop where
  first : ∃ c w, spelled ls = c :: w ∧ c ∉ seconds
  parts : TypeLexemes ls
  closed : Closed (ls.map (·.1))
  writes : ∀ last z, namesMember last = false → Follows z → Writes last ls z

/-- Pieces with a sign between them. -/
theorem TypePiece.joined {c : Char} {k : Kind} (hc : (c, k) ∈ [('|', Kind.bitwiseOr), ('&', .bitwiseAnd)])
    {ls : List (Kind × List Char)} {rest : List (List (Kind × List Char))} (hls : TypePiece ls)
    (hrest : ∀ ms ∈ rest, TypePiece ms ∧
      ∀ vs, TypeLexemes (ms ++ vs) → TypeLexemes ((k, [c]) :: (ms ++ vs))) :
    TypePiece (joined (k, [c]) (ls :: rest)) := by
  have hk : (c, k) ∈ signKinds ∧ c ∈ [',', ')', ']', '|', '&', '(', ':', '$', '='] ∧
      k.isBracket = false ∧ k ≠ .comma ∧ ∀ last : Option Kind,
        namesMember (if k.isEffective then some k else last) = false := by
    simp only [List.mem_cons, Prod.mk.injEq, List.not_mem_nil, or_false] at hc
    rcases hc with ⟨rfl, rfl⟩ | ⟨rfl, rfl⟩
    all_goals exact ⟨by decide, by decide, rfl, nofun, fun _ => rfl⟩
  obtain ⟨hsign, hmark, hbracket, hcomma, hlast'⟩ := hk
  induction rest generalizing ls with
  | nil => exact hls
  | cons ms rest ih =>
    obtain ⟨⟨hms, hsep⟩, hrest⟩ := List.forall_mem_cons.1 hrest
    obtain ⟨hfirst, hparts, hclosed, hwrites⟩ := ih hms hrest
    rw [Written.joined]
    refine ⟨?_, ?_, ?_, fun last z hlast hz => ?_⟩
    · obtain ⟨d, w, hw, hd⟩ := hls.first
      exact ⟨d, _, by rw [spelled_append, hw, List.cons_append], hd⟩
    · obtain ⟨vs, hvs⟩ := exists_joined_cons (k, [c]) ms rest
      rw [hvs] at hparts ⊢
      exact hls.parts.append (hsep vs hparts)
    · rw [List.map_append]
      exact hls.closed.append (.cons hbracket hcomma hclosed)
    · obtain ⟨d, w, hw, hd⟩ := hfirst
      refine .append (hls.writes last _ hlast (.of_mark hmark _)) ?_
      refine .cons ?_ (hwrites _ z (hlast' _) hz)
      rw [hw]
      exact writes_sign hsign hd _

/-- Two names or more, for a value that fits all of them. -/
structure Intersection where
  first : TypeName
  second : TypeName
  others : List TypeName

def nameLexemes (n : TypeName) : List (Kind × List Char) :=
  [(n.kind, n.text)]

theorem nameLexemes_piece (n : TypeName) : TypePiece (nameLexemes n) where
  first := by
    obtain ⟨c, w, hw, hc⟩ := n.exists_first
    exact ⟨c, w, by simp [nameLexemes, hw], hc⟩
  parts := .part (List.mem_append_left _ n.kind_mem) .nil
  closed := n.closed_cons .nil
  writes _ _ hlast hz := n.writes hlast hz

namespace Intersection

def names (i : Intersection) : List TypeName :=
  i.first :: i.second :: i.others

def text (i : Intersection) : List Char :=
  joinWith ['&'] (i.names.map fun n => n.text)

def lexemes (i : Intersection) : List (Kind × List Char) :=
  joined (.bitwiseAnd, ['&']) (i.names.map nameLexemes)

theorem spelled_lexemes (i : Intersection) : spelled i.lexemes = i.text := by
  rw [lexemes, spelled_joined, List.map_map, text]
  congr 1
  refine List.map_congr_left fun n _ => ?_
  simp [nameLexemes]

theorem piece (i : Intersection) : TypePiece i.lexemes := by
  refine TypePiece.joined (by decide) (nameLexemes_piece i.first) fun ms hms => ?_
  obtain ⟨n, -, rfl⟩ := List.mem_map.1 hms
  exact ⟨nameLexemes_piece n, fun vs hvs => .both rfl n.kind_mem hvs⟩

theorem uncast_text (i : Intersection) (z : List Char) : Uncast (i.text ++ z) := by
  have htext : ∃ w, i.text = i.first.text ++ '&' :: w := by
    rw [text, names, List.map_cons, List.map_cons]
    exact ⟨_, List.append_assoc _ _ _⟩
  obtain ⟨w, hw⟩ := htext
  rw [hw, List.append_assoc]
  refine .append (.of_not_mem (i.first.not_mem_text (by decide) (by decide))) ?_
  exact .of_head (by decide) (by decide)

end Intersection

/-- An alternative of a union. -/
inductive Alternative where
  | name (n : TypeName)
  | all (i : Intersection)

namespace Alternative

def text : Alternative → List Char
  | name n => n.text
  | all i => '(' :: (i.text ++ [')'])

def isNull : Alternative → Bool
  | name n => n.isNull
  | all _ => false

def lexemes : Alternative → List (Kind × List Char)
  | name n => nameLexemes n
  | all i => (.openParen, ['(']) :: (i.lexemes ++ [(.closeParen, [')'])])

theorem spelled_lexemes (a : Alternative) : spelled a.lexemes = a.text := by
  cases a with
  | name n => simp [lexemes, nameLexemes, text]
  | all i => simp [lexemes, text, spelled_append, i.spelled_lexemes]

theorem piece (a : Alternative) : TypePiece a.lexemes := by
  cases a with
  | name n => exact nameLexemes_piece n
  | all i =>
    obtain ⟨-, hparts, hclosed, hwrites⟩ := i.piece
    refine ⟨⟨'(', _, rfl, by decide⟩, ?_, ?_, fun last z _ _ => ?_⟩
    · exact .part (by decide) (hparts.append (.part (by decide) .nil))
    · exact .bracketed rfl hclosed.balanced
    · have hopen : castLength? ('(' :: (spelled (i.lexemes ++ [(.closeParen, [')'])]) ++ z)) = none := by
        rw [spelled_append, i.spelled_lexemes, List.append_assoc]
        exact castLength?_eq_none (i.uncast_text _)
      refine .cons (writes_openParen hopen) ?_
      exact .append (hwrites (some .openParen) _ rfl (.of_mark (by decide) z)) (writes_mark (by decide) z)

theorem uncast_text (a : Alternative) : Uncast a.text := by
  cases a with
  | name n => exact .of_not_mem (n.not_mem_text (by decide) (by decide))
  | all i => exact .of_head (by decide) (by decide)

end Alternative

/-! ### Types -/

/-- A type as it is written. -/
inductive TypeText where
  | nullable (n : TypeName)
  | intersection (i : Intersection)
  | union (first : Alternative) (others : List Alternative)

namespace TypeText

def bare : TypeText → List Char
  | nullable n => n.text
  | intersection i => i.text
  | union first others => joinWith ['|'] ((first :: others).map Alternative.text)

def text (t : TypeText) : List Char :=
  match t with
  | nullable _ => '?' :: t.bare
  | _ => t.bare

/-- Whether `null` is among the values of the type. -/
def isNullable : TypeText → Bool
  | nullable _ => true
  | intersection _ => false
  | union first others => (first :: others).any Alternative.isNull

theorem union_piece (first : Alternative) (others : List Alternative) :
    TypePiece (joined (.bitwiseOr, ['|']) ((first :: others).map Alternative.lexemes)) := by
  refine TypePiece.joined (by decide) first.piece fun ms hms => ?_
  obtain ⟨a, -, rfl⟩ := List.mem_map.1 hms
  exact ⟨a.piece, fun vs hvs => .part (by decide) hvs⟩

theorem exists_lexemes (t : TypeText) {last : Option Kind} (hlast : namesMember last = false)
    {z : List Char} (hz : Follows z) : ∃ ls, spelled ls = t.text ∧ TypeLexemes ls ∧
      Closed (ls.map (·.1)) ∧ Writes last ls z := by
  cases t with
  | nullable n =>
    obtain ⟨c, w, hw, hc⟩ := n.exists_first
    have hkind : signKind last '?' (c :: (w ++ z)) ∈ [Kind.nullable, .ternary] := by
      change (if _ then Kind.nullable else .ternary) ∈ _
      split <;> simp
    have hmark : ∀ k ∈ [Kind.nullable, .ternary], k ∈ typeParts ∧ k.isBracket = false ∧ k ≠ .comma ∧
        ∀ last : Option Kind, namesMember (if k.isEffective then some k else last) = false := by
      intro k hk
      simp only [List.mem_cons, List.not_mem_nil, or_false] at hk
      rcases hk with rfl | rfl <;> exact ⟨by decide, rfl, nofun, fun _ => rfl⟩
    obtain ⟨hpart, hbracket, hcomma, hlast'⟩ := hmark _ hkind
    obtain ⟨-, hparts, hclosed, hwrites⟩ := nameLexemes_piece n
    refine ⟨(signKind last '?' (c :: (w ++ z)), ['?']) :: nameLexemes n, ?_, .part hpart hparts,
      .cons hbracket hcomma hclosed, ?_⟩
    · simp [nameLexemes, text, bare]
    · refine .cons ?_ (hwrites _ z (hlast' last) hz)
      have hspelled : spelled (nameLexemes n) ++ z = c :: (w ++ z) := by simp [nameLexemes, hw]
      rw [hspelled]
      exact writes_question hc _
  | intersection i =>
    exact ⟨_, i.spelled_lexemes, i.piece.parts, i.piece.closed, i.piece.writes last z hlast hz⟩
  | union first others =>
    obtain ⟨-, hparts, hclosed, hwrites⟩ := union_piece first others
    refine ⟨_, ?_, hparts, hclosed, hwrites last z hlast hz⟩
    have htext : (union first others).text = joinWith ['|'] ((first :: others).map Alternative.text) := rfl
    rw [spelled_joined, List.map_map, htext]
    congr 1
    exact List.map_congr_left fun a _ => a.spelled_lexemes

theorem inked_joinWith {u : List Char} (hu : Inked u) (sep : List Char) (us : List (List Char)) :
    Inked (joinWith sep (u :: us)) := by
  cases us with
  | nil => exact hu
  | cons v us => exact (hu.append _).append _

theorem inked_text (t : TypeText) : Inked t.text := by
  cases t with
  | nullable n => exact inked_of_mem (by decide)
  | intersection i => exact inked_joinWith i.first.inked_text _ _
  | union first others =>
    refine inked_joinWith ?_ _ _
    cases first with
    | name n => exact n.inked_text
    | all i => exact inked_of_mem (by decide)

theorem uncast_text (t : TypeText) : Uncast t.text := by
  cases t with
  | nullable n => exact .of_head (by decide) (by decide)
  | intersection i =>
    have huncast := i.uncast_text []
    rwa [List.append_nil] at huncast
  | union first others =>
    have htext : (union first others).text =
        first.text ++ (others.map Alternative.text).flatMap (['|'] ++ ·) := DocType.joinWith_cons _ _ _
    rw [htext]
    exact .append first.uncast_text
      (uncast_flatMap (fun _ => .of_head (by decide) (by decide)) _)

end TypeText

theorem splitAt_joinWith {c : Char} {ps : List (List Char)} (hps : ∀ p ∈ ps, c ∉ p) (hne : ps ≠ []) :
    splitAt c (joinWith [c] ps) = ps := by
  rw [DocType.joinWith_eq_intercalate]
  exact List.splitOn_intercalate c hps hne

/-- Whether an alternative of a declared type is `null`. -/
def readsNull (member : List Char) : Bool :=
  lower (trimBoth (fun c => c == '(' || c == ')') member) == "null".toList

theorem ofText?_ofList {cs : List Char} (hcs : cs ≠ []) : DeclaredType.ofText? (String.ofList cs) =
    some ⟨String.ofList cs, cs.head? == some '?' || (splitAt '|' cs).any readsNull⟩ := by
  rw [DeclaredType.ofText?, String.toList_ofList, if_neg (by simpa using hcs)]
  rfl

theorem readsNull_of_mem {member : List Char} (h : '&' ∈ member) : readsNull member = false := by
  refine beq_eq_false_iff_ne.2 fun hnull => ?_
  have hmem : '&' ∈ lower (trimBoth (fun c => c == '(' || c == ')') member) :=
    List.mem_map.2 ⟨'&', mem_trimBoth h rfl, rfl⟩
  rw [hnull] at hmem
  exact absurd hmem (by decide)

theorem Name.readsNull_text (n : Name) : readsNull n.text = n.isNull := by
  have hparens : ∀ c ∈ n.text, (c == '(' || c == ')') = false := by
    intro c hc
    refine Bool.or_eq_false_iff.2 ⟨beq_eq_false_iff_ne.2 ?_, beq_eq_false_iff_ne.2 ?_⟩
    all_goals
      rintro rfl
      exact n.not_mem_text (by decide) (by decide) hc
  have hdrop : ∀ cs : List Char, (∀ c ∈ cs, (c == '(' || c == ')') = false) →
      cs.dropWhile (fun c => c == '(' || c == ')') = cs := by
    intro cs hcs
    cases cs with
    | nil => rfl
    | cons c cs => exact List.dropWhile_cons_of_neg (by simp [hcs c List.mem_cons_self])
  rw [readsNull, trimBoth, hdrop _ hparens, dropTail, hdrop _ (by simpa using hparens), List.reverse_reverse,
    isNull]

theorem Intersection.mem_text (i : Intersection) : '&' ∈ i.text := by
  rw [text, names, List.map_cons, List.map_cons, DocType.joinWith_cons, List.flatMap_cons]
  simp

theorem Alternative.readsNull_text (a : Alternative) : readsNull a.text = a.isNull := by
  cases a with
  | name n => exact n.readsNull_text
  | all i => exact readsNull_of_mem (List.mem_cons_of_mem _ (List.mem_append_left _ i.mem_text))

theorem Intersection.not_mem_text (i : Intersection) {c : Char} (hchar : isNameChar c = false)
    (hback : c ≠ '\\') (hand : c ≠ '&') : c ∉ i.text := by
  have hnames : ∀ w ∈ i.names.map (fun n => n.text), c ∉ w := by
    intro w hw
    obtain ⟨n, -, rfl⟩ := List.mem_map.1 hw
    exact n.not_mem_text hchar hback
  rw [text]
  generalize i.names.map (fun n => n.text) = ws at hnames
  induction ws with
  | nil => exact List.not_mem_nil
  | cons w ws ih =>
    rw [DocType.joinWith_cons]
    simp only [List.mem_append, List.mem_flatMap, not_or, not_exists, not_and]
    refine ⟨hnames w List.mem_cons_self, fun v hv => ⟨by simpa using hand, ?_⟩⟩
    exact hnames v (List.mem_cons_of_mem _ hv)

theorem Alternative.not_mem_text (a : Alternative) : '|' ∉ a.text := by
  cases a with
  | name n => exact n.not_mem_text (by decide) (by decide)
  | all i =>
    have hi : '|' ∉ i.text := i.not_mem_text (by decide) (by decide) (by decide)
    simpa [text] using hi

namespace TypeText

theorem bare_first (t : TypeText) : ∃ c w, t.bare = c :: w ∧ c ≠ '?' := by
  have hname : ∀ n : Name, ∃ c w, n.text = c :: w ∧ c ≠ '?' := by
    intro n
    obtain ⟨c, w, hw, hc⟩ := n.exists_first
    refine ⟨c, w, hw, ?_⟩
    rintro rfl
    exact hc (by decide)
  have hjoin : ∀ {sep u : List Char} (us : List (List Char)), (∃ c w, u = c :: w ∧ c ≠ '?') →
      ∃ c w, joinWith sep (u :: us) = c :: w ∧ c ≠ '?' := by
    rintro sep u us ⟨c, w, rfl, hc⟩
    exact ⟨c, _, DocType.joinWith_cons _ _ _, hc⟩
  cases t with
  | nullable n => exact hname _
  | intersection i => exact hjoin _ (hname _)
  | union first others =>
    refine hjoin _ ?_
    cases first with
    | name n => exact hname _
    | all i => exact ⟨'(', _, rfl, by decide⟩

/-- A declared type is what is written, and nullable if its text says so. -/
theorem ofText?_text (t : TypeText) : DeclaredType.ofText? (String.ofList t.text) =
    some ⟨String.ofList t.text, t.isNullable⟩ := by
  obtain ⟨c, w, hbare, hc⟩ := t.bare_first
  have hne : t.bare ≠ [] := hbare ▸ List.cons_ne_nil c w
  have hhead : (t.bare.head? == some '?') = false := by
    rw [hbare]
    simpa using hc
  cases t with
  | nullable n => exact ofText?_ofList (List.cons_ne_nil _ _)
  | intersection i =>
    have hbar : '|' ∉ i.text := i.not_mem_text (by decide) (by decide) (by decide)
    have hsplit : splitAt '|' (intersection i).bare = [i.text] := by
      change splitAt '|' (joinWith ['|'] [i.text]) = _
      exact splitAt_joinWith (by simpa using hbar) nofun
    change DeclaredType.ofText? (String.ofList (intersection i).bare) = _
    rw [ofText?_ofList hne, hhead, hsplit, List.any_cons, readsNull_of_mem i.mem_text]
    rfl
  | union first others =>
    have hparts : ∀ p ∈ (first :: others).map Alternative.text, '|' ∉ p := by
      intro p hp
      obtain ⟨a, -, rfl⟩ := List.mem_map.1 hp
      exact a.not_mem_text
    have hsplit : splitAt '|' (union first others).bare = (first :: others).map Alternative.text :=
      splitAt_joinWith hparts nofun
    have hnull : readsNull ∘ Alternative.text = Alternative.isNull := funext fun a => a.readsNull_text
    change DeclaredType.ofText? (String.ofList (union first others).bare) = _
    rw [ofText?_ofList hne, hhead, hsplit, List.any_map, hnull]
    rfl

theorem bare_declared (t : TypeText) (b : Bool) :
    (⟨String.ofList t.text, b⟩ : DeclaredType).bare = String.ofList t.bare := by
  obtain ⟨c, w, hbare, hc⟩ := t.bare_first
  have hwhole : ∀ {cs : List Char}, cs = c :: w →
      (⟨String.ofList cs, b⟩ : DeclaredType).bare = String.ofList cs := by
    rintro cs rfl
    rw [DeclaredType.bare, String.toList_ofList]
    split
    · rename_i heq
      exact absurd (List.cons.inj heq).1 hc
    · rfl
  cases t with
  | nullable n => rw [DeclaredType.bare, String.toList_ofList]; rfl
  | intersection i => exact hwhole hbare
  | union first others => exact hwhole hbare

end TypeText

end PhpStyle.Written
