import Proto2.Printer.Declaration
import Proto2.Proofs.Layout.Lays

/-!
Printed bodies.

A body is printed in sections, with an empty line between each two.  Lines of a section are
items of the body, and neither the empty lines nor the indentation of the whole bears tokens,
so what the text of a body says is the items of all its sections, one after the other.
-/

namespace Proto2

variable {α : Type} {At : List Token → α → List Token → Prop}

/-- The lines bear tokens in which the items stand, one after the other. -/
def LaysItems (At : List Token → α → List Token → Prop) (cs : List Char) (as : List α) : Prop :=
  Lays .line cs .line fun ts us => Sequence At ts as us

theorem LaysItems.nil : LaysItems At [] [] := by
  refine (Lays.done .line).mono ?_
  rintro ts us rfl
  exact .nil

theorem LaysItems.append {cs ds : List Char} {as bs : List α} (h : LaysItems At cs as)
    (h' : LaysItems At ds bs) : LaysItems At (cs ++ ds) (as ++ bs) := by
  refine (Lays.append h h').mono ?_
  intro ts us hboth
  obtain ⟨ms, has, hbs⟩ := hboth
  exact has.append hbs

/-- Items that are printed one by one. -/
theorem laysItems_flatten {β : Type} {text : β → List Char} {item : β → α} {bs : List β}
    (laid : ∀ b ∈ bs, Lays .line (text b) .line fun ts us => At ts (item b) us) :
    LaysItems At (bs.map text).flatten (bs.map item) := by
  induction bs with
  | nil => exact .nil
  | cons b bs ih =>
      have hrest := ih fun c hc => laid c (List.mem_cons_of_mem _ hc)
      refine ((laid b List.mem_cons_self).append hrest).mono ?_
      intro ts us hboth
      obtain ⟨ms, hb, hbs⟩ := hboth
      exact .cons hb hbs

/-- The sections bear tokens in which the items stand, one after the other. -/
inductive LaysSections (At : List Token → α → List Token → Prop) :
    List (List Char) → List α → Prop
  | nil : LaysSections At [] []
  | cons {cs : List Char} {rest : List (List Char)} {as bs : List α} (head : LaysItems At cs as)
      (tail : LaysSections At rest bs) : LaysSections At (cs :: rest) (as ++ bs)

namespace LaysSections

variable {sections rest : List (List Char)} {as bs : List α}

theorem append (h : LaysSections At sections as) (h' : LaysSections At rest bs) :
    LaysSections At (sections ++ rest) (as ++ bs) := by
  induction h with
  | nil => exact h'
  | cons head tail ih =>
      rw [List.cons_append, List.append_assoc]
      exact .cons head ih

/-- The section of items that are printed one by one; there is none if there are no items. -/
theorem sectionOf {β : Type} {text : β → List Char} {item : β → α} {bs : List β}
    (laid : ∀ b ∈ bs, Lays .line (text b) .line fun ts us => At ts (item b) us) :
    LaysSections At (Layout.sectionOf (bs.map text)) (bs.map item) := by
  cases bs with
  | nil => exact .nil
  | cons b bs =>
      have hone := LaysSections.cons (laysItems_flatten laid) .nil
      rwa [List.append_nil] at hone

/-- Sections behind one another, with an empty line between each two. -/
theorem joined (h : LaysSections At sections as) :
    LaysItems At (Text.joined ['\n'] sections) as := by
  induction h with
  | nil => exact .nil
  | @cons cs rest as bs head tail ih =>
      cases rest with
      | nil =>
          cases tail
          rw [Text.joined, List.intercalate_singleton, List.append_nil]
          exact head
      | cons ds rest =>
          have hempty : LaysItems At ('\n' :: Text.joined ['\n'] (ds :: rest)) bs :=
            Lays.newline ih
          rw [Text.joined, List.intercalate_cons_of_ne_nil (by simp), List.append_assoc]
          exact head.append hempty

/-- Sections that each stand behind an empty line, or behind what the empty line drops. -/
theorem lines {p : Pen} (fresh : p.ended = .line) (h : LaysSections At sections as) :
    ∃ q, Lays p (sections.flatMap ('\n' :: ·)) q fun ts us => Sequence At ts as us := by
  have hline {sections : List (List Char)} {as : List α} (h : LaysSections At sections as) :
      LaysItems At (sections.flatMap ('\n' :: ·)) as := by
    induction h with
    | nil => exact .nil
    | cons head tail ih => exact (show LaysItems At _ _ from Lays.newline head).append ih
  cases h with
  | nil =>
      refine ⟨p, (Lays.done p).mono ?_⟩
      rintro ts us rfl
      exact .nil
  | cons head tail =>
      have hrest := head.append (hline tail)
      refine ⟨.line, ?_⟩
      apply Lays.newline
      rw [fresh]
      exact hrest

/-- A body between braces. -/
theorem body (h : LaysSections At sections as) :
    Lays (.behind .openBrace) (Layout.body sections ++ ['\x7d', '\n']) .line fun ts us =>
      ∃ closing, Sequence At ts as (closing :: us) ∧ closing.kind = .closeBrace := by
  have hclosing (p : Pen) (fits : p.Fits '\x7d') :
      Lays p ['\x7d', '\n'] .line fun ts us => ∃ t, ts = t :: us ∧ t.kind = .closeBrace := by
    refine (Lays.symbol rfl fits (Lays.newline (.done _))).mono ?_
    rintro ts us ⟨t, ms, rfl, ht, rfl⟩
    exact ⟨t, rfl, ht⟩
  unfold Layout.body
  cases h with
  | nil =>
      refine (hclosing _ (Pen.fits_behind rfl)).mono ?_
      rintro ts us ⟨t, rfl, ht⟩
      exact ⟨t, .nil, ht⟩
  | cons head tail =>
      have hitems := (LaysSections.cons head tail).joined
      have hall := (Lays.indent hitems).append (hclosing _ (Pen.fits_line _))
      refine (Lays.newline (p := .behind .openBrace) hall).mono ?_
      rintro ts us ⟨_, hitems, t, rfl, ht⟩
      exact ⟨t, hitems, ht⟩

/-- What stands behind the head of a declaration with a body. -/
theorem braces (h : LaysSections At sections as) :
    Lays (.behind .identifier) (' ' :: '\x7b' :: (Layout.body sections ++ ['\x7d', '\n'])) .line
      fun ts us => ∃ opening ms closing, ts = opening :: ms ∧ opening.kind = .openBrace ∧
        Sequence At ms as (closing :: us) ∧ closing.kind = .closeBrace := by
  have hopen := Lays.symbol (p := .gap) (c := '\x7b') rfl (Pen.fits_gap _) h.body
  refine (Lays.space (p := .behind .identifier) hopen).mono ?_
  rintro ts us ⟨opening, ms, rfl, hopening, closing, hitems, hclosing⟩
  exact ⟨opening, ms, closing, rfl, hopening, hitems, hclosing⟩

end LaysSections

theorem Layout.block_eq (head : List Char) (sections : List (List Char)) :
    Layout.block head sections =
      head ++ ' ' :: '\x7b' :: (Layout.body sections ++ ['\x7d', '\n']) := by
  simp [Layout.block]

end Proto2
