import PhpStyle.Token.Linking

/-!
# What tying tokens leaves alone

Every step of `Tokens.ofSource` after the lexer is made of `Tokens.relink`, which changes the links
of one token and nothing else. So a token of `ofSource` is the lexer's token of the same index up
to its links (`ofSource_unlinked`), and a part of the links that no step of a kind writes is the
same before and after all steps of that kind (`links_foldl_eq`).
-/

namespace PhpStyle

/-- The token without what ties it to others. -/
def Token.unlinked (t : Token) : Token :=
  { t with links := {} }

@[simp] theorem Token.unlinked_kind (t : Token) : t.unlinked.kind = t.kind := rfl
@[simp] theorem Token.unlinked_content (t : Token) : t.unlinked.content = t.content := rfl

namespace Tokens

variable {ts us : Tokens}

/-- The tokens without their links. -/
def unlinked (ts : Tokens) : Tokens :=
  ⟨ts.items.map Token.unlinked⟩

theorem kinds_unlinked (ts : Tokens) : ts.unlinked.kinds = ts.kinds := by
  simp [kinds, unlinked]

theorem size_unlinked (ts : Tokens) : ts.unlinked.size = ts.size := by
  simp [size, unlinked]

theorem get?_relink (ts : Tokens) (i : Nat) (f : Links → Links) (j : Nat) :
    (ts.relink i f).get? j =
      if i = j then (ts.get? j).map fun t => { t with links := f t.links } else ts.get? j := by
  simp only [relink, get?, Array.getElem?_modify]

@[simp] theorem unlinked_relink (ts : Tokens) (i : Nat) (f : Links → Links) :
    (ts.relink i f).unlinked = ts.unlinked := by
  simp only [unlinked, relink, mk.injEq]
  refine Array.ext_getElem? fun j => ?_
  simp only [Array.getElem?_map, Array.getElem?_modify]
  split
  · cases ts.items[j]? <;> rfl
  · rfl

theorem size_relink (ts : Tokens) (i : Nat) (f : Links → Links) : (ts.relink i f).size = ts.size := by
  simp [size, relink]

theorem links_relink_of_ne (ts : Tokens) {i j : Nat} (f : Links → Links) (h : i ≠ j) :
    (ts.relink i f).links j = ts.links j := by
  rw [links, get?_relink, if_neg h, links]

theorem links_relink_self (ts : Tokens) {i : Nat} (f : Links → Links) (h : i < ts.size) :
    (ts.relink i f).links i = f (ts.links i) := by
  have : ts.get? i = some ts.items[i] := Array.getElem?_eq_getElem h
  simp [links, get?_relink, this]

theorem links_relink_eq {α : Type} (g : Links → α) {f : Links → Links} (hf : ∀ l, g (f l) = g l)
    (ts : Tokens) (i j : Nat) : g ((ts.relink i f).links j) = g (ts.links j) := by
  rw [links, links, get?_relink]
  split
  · cases ts.get? j
    · rfl
    · exact hf _
  · rfl

theorem unlinked_foldl {β : Type} {step : Tokens → β → Tokens}
    (h : ∀ ts b, (step ts b).unlinked = ts.unlinked) (bs : List β) (ts : Tokens) :
    (bs.foldl step ts).unlinked = ts.unlinked := by
  induction bs generalizing ts with
  | nil => rfl
  | cons b bs ih => rw [List.foldl_cons, ih, h]

/-- A part of the links comes through a fold of steps that keep it. -/
theorem links_foldl_eq {α β : Type} (g : Links → α) {step : Tokens → β → Tokens}
    (h : ∀ ts b j, g ((step ts b).links j) = g (ts.links j)) (bs : List β) (ts : Tokens) (j : Nat) :
    g ((bs.foldl step ts).links j) = g (ts.links j) := by
  induction bs generalizing ts with
  | nil => rfl
  | cons b bs ih => rw [List.foldl_cons, ih, h]

theorem unlinked_linkDoc (ts : Tokens) (d : DocSpan) : (ts.linkDoc d).unlinked = ts.unlinked := by
  unfold linkDoc
  split <;> simp

theorem unlinked_linkBracket (ts : Tokens) (p : Nat × Nat) :
    (ts.linkBracket p).unlinked = ts.unlinked := by
  simp [linkBracket]

theorem unlinked_linkParenOwner (ts : Tokens) (o : Owned) :
    (ts.linkParenOwner o).unlinked = ts.unlinked := by
  simp [linkParenOwner]

theorem unlinked_linkScope (ts : Tokens) (o : Owned) : (ts.linkScope o).unlinked = ts.unlinked := by
  simp [linkScope]

@[simp] theorem unlinked_linkDocs (ts : Tokens) : ts.linkDocs.unlinked = ts.unlinked :=
  unlinked_foldl unlinked_linkDoc _ ts

@[simp] theorem unlinked_linkBrackets (ts : Tokens) : ts.linkBrackets.unlinked = ts.unlinked :=
  unlinked_foldl unlinked_linkBracket _ ts

@[simp] theorem unlinked_linkParenOwners (ts : Tokens) : ts.linkParenOwners.unlinked = ts.unlinked :=
  unlinked_foldl unlinked_linkParenOwner _ ts

@[simp] theorem unlinked_linkScopes (ts : Tokens) : ts.linkScopes.unlinked = ts.unlinked :=
  unlinked_foldl unlinked_linkScope _ ts

theorem place_unlinked (p : Position) (ls : List (Kind × List Char)) :
    (Token.place p ls).map Token.unlinked = Token.place p ls := by
  induction ls generalizing p with
  | nil => rfl
  | cons l ls ih => rw [Token.place, List.map_cons, ih]; rfl

theorem lex_unlinked (source : String) : (lex source).unlinked = lex source := by
  simp only [unlinked, lex, List.map_toArray, place_unlinked]

/-- A token of a source is the lexer's token up to its links. -/
theorem ofSource_unlinked (source : String) : (ofSource source).unlinked = lex source := by
  simp [ofSource, lex_unlinked]

end Tokens

end PhpStyle
