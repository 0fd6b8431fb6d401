import Mathlib.Data.List.Forall2
import Proto2.Documentation

/-!
Text whose lines end in a carriage return and a newline.

Such a text has the lines of the text with newlines alone, and all of them but the last have a
carriage return at their end.  A carriage return is blank, so nothing is seen of it where blanks
at the ends of lines are removed, as they are in documentation: it depends on nothing but the gists
of the comments, which are their lines without those blanks.
-/

namespace Proto2

namespace Text

/-- The text with a carriage return before each newline. -/
def crlf : List Char → List Char
  | [] => []
  | c :: cs => if c = '\n' then '\r' :: '\n' :: crlf cs else c :: crlf cs

@[simp] theorem crlf_nil : crlf [] = [] := rfl

@[simp] theorem crlf_newline (cs : List Char) :
    crlf ('\n' :: cs) = '\r' :: '\n' :: crlf cs := rfl

theorem crlf_cons {c : Char} (h : c ≠ '\n') (cs : List Char) : crlf (c :: cs) = c :: crlf cs :=
  if_neg h

theorem crlf_append (cs ds : List Char) : crlf (cs ++ ds) = crlf cs ++ crlf ds := by
  induction cs with
  | nil => rfl
  | cons c cs ih =>
      by_cases hc : c = '\n'
      · subst hc
        simp [ih]
      · rw [List.cons_append, crlf_cons hc, crlf_cons hc, ih, List.cons_append]

/-- On one line there is nothing to change. -/
theorem crlf_eq_self {cs : List Char} (h : '\n' ∉ cs) : crlf cs = cs := by
  induction cs with
  | nil => rfl
  | cons c cs ih =>
      rw [List.mem_cons, not_or] at h
      rw [crlf_cons (Ne.symm h.1), ih h.2]

theorem head?_crlf_ne {cs : List Char} {c : Char} (hc : c ≠ '\r') (h : cs.head? ≠ some c) :
    (crlf cs).head? ≠ some c := by
  cases cs with
  | nil => exact h
  | cons d cs =>
      by_cases hd : d = '\n'
      · subst hd
        simpa using Ne.symm hc
      · rwa [crlf_cons hd]

theorem mem_crlf {cs : List Char} {c : Char} (h : c ∈ crlf cs) : c ∈ cs ∨ c = '\r' := by
  induction cs with
  | nil => cases h
  | cons d cs ih =>
      unfold crlf at h
      split at h
      · rename_i hd
        subst hd
        simp only [List.mem_cons] at h ⊢
        rcases h with rfl | rfl | h
        · exact .inr rfl
        · exact .inl (.inl rfl)
        · exact (ih h).imp_left .inr
      · simp only [List.mem_cons] at h ⊢
        rcases h with rfl | h
        · exact .inl (.inl rfl)
        · exact (ih h).imp_left .inr

theorem take_drop_crlf {cs : List Char} {n : Nat} (oneLine : '\n' ∉ cs.take n) :
    (crlf cs).take n = cs.take n ∧ (crlf cs).drop n = crlf (cs.drop n) := by
  induction n generalizing cs with
  | zero => exact ⟨rfl, rfl⟩
  | succ n ih =>
      cases cs with
      | nil => exact ⟨rfl, rfl⟩
      | cons c cs =>
          rw [List.take_succ_cons, List.mem_cons, not_or] at oneLine
          obtain ⟨htake, hdrop⟩ := ih oneLine.2
          rw [crlf_cons (Ne.symm oneLine.1), List.take_succ_cons, List.take_succ_cons, htake,
            List.drop_succ_cons, List.drop_succ_cons, hdrop]
          exact ⟨rfl, rfl⟩

theorem count_newline_crlf (cs : List Char) : (crlf cs).count '\n' = cs.count '\n' := by
  induction cs with
  | nil => rfl
  | cons c cs ih =>
      by_cases hc : c = '\n'
      · subst hc
        simp [ih]
      · rw [crlf_cons hc, List.count_cons, List.count_cons, ih]

/-! ### Lines -/

/-- The lines are the same, or the second one has a carriage return at its end. -/
def Returned (l l' : List Char) : Prop :=
  l' = l ∨ l' = l ++ ['\r']

theorem Returned.cons {l l' : List Char} (h : Returned l l') (c : Char) :
    Returned (c :: l) (c :: l') := by
  rcases h with rfl | rfl
  · exact .inl rfl
  · exact .inr rfl

theorem lines_newline (cs : List Char) : lines ('\n' :: cs) = [] :: lines cs := by
  rw [lines, List.splitOn_cons_eq_if_modifyHead, if_pos (beq_self_eq_true _), lines]

theorem lines_cons {c : Char} (h : c ≠ '\n') (cs : List Char) :
    lines (c :: cs) = (lines cs).modifyHead (c :: ·) := by
  rw [lines, List.splitOn_cons_eq_if_modifyHead, if_neg (by simpa using h), lines]

theorem forall₂_lines_crlf (cs : List Char) :
    List.Forall₂ Returned (lines cs) (lines (crlf cs)) := by
  induction cs with
  | nil => exact .cons (.inl rfl) .nil
  | cons c cs ih =>
      by_cases hc : c = '\n'
      · subst hc
        rw [crlf_newline, lines_newline, lines_cons (by decide), lines_newline]
        exact .cons (.inr rfl) ih
      · rw [crlf_cons hc, lines_cons hc, lines_cons hc]
        generalize lines cs = ls, lines (crlf cs) = ls' at ih
        cases ih with
        | nil => exact .nil
        | cons head tail => exact .cons (head.cons c) tail

/-- What a carriage return at the end of a line does not change is the same for both. -/
theorem Returned.apply {l l' : List Char} (h : Returned l l') {β : Type} {f : List Char → β}
    (same : ∀ l, f (l ++ ['\r']) = f l) : f l' = f l := by
  rcases h with rfl | rfl
  · rfl
  · exact same l

theorem map_of_returned {ls ls' : List (List Char)} (h : List.Forall₂ Returned ls ls') {β : Type}
    {f : List Char → β} (same : ∀ l, f (l ++ ['\r']) = f l) : ls'.map f = ls.map f := by
  induction h with
  | nil => rfl
  | cons head _ ih => rw [List.map_cons, List.map_cons, ih, head.apply same]

/-! ### Blanks at the ends -/

theorem trimEnd_return (l : List Char) : trimEnd (l ++ ['\r']) = trimEnd l := by
  have hblank : isBlank '\r' = true := by decide
  rw [trimEnd, List.reverse_append, List.reverse_singleton, List.singleton_append,
    List.dropWhile_cons_of_pos hblank, trimEnd]

theorem trim_return (l : List Char) : trim (l ++ ['\r']) = trim l := by
  have hblank : isBlank '\r' = true := by decide
  unfold trim trimStart
  rw [List.dropWhile_append]
  split
  · rename_i hempty
    rw [List.isEmpty_iff.mp hempty, List.dropWhile_cons_of_pos hblank]
    rfl
  · rw [trimEnd_return]

end Text

namespace Documentation

/-! ### Margins -/

/-- Text without the space it starts with, if it does. -/
def dropSpace : List Char → List Char
  | ' ' :: cs => cs
  | cs => cs

theorem lineBody_eq (text : List Char) : lineBody text = dropSpace (text.drop 2) := by
  unfold lineBody dropSpace
  rfl

theorem dropMargin_eq (line : List Char) :
    dropMargin line = ((behindStar? line).map dropSpace).getD line := by
  unfold dropMargin
  split <;> rename_i h
  · rw [h]
    rfl
  · rw [h, Option.map_some, Option.getD_some, dropSpace.eq_2]
    assumption
  · rw [h]
    rfl

theorem trimEnd_dropSpace_return (l : List Char) :
    Text.trimEnd (dropSpace (l ++ ['\r'])) = Text.trimEnd (dropSpace l) := by
  cases l with
  | nil => rfl
  | cons c cs =>
      by_cases hc : c = ' '
      · subst hc
        exact Text.trimEnd_return cs
      · have hkept (ds : List Char) : dropSpace (c :: ds) = c :: ds := by
          rw [dropSpace.eq_2]
          rintro es ⟨⟩
          exact hc rfl
        rw [List.cons_append, hkept, hkept]
        exact Text.trimEnd_return (c :: cs)

theorem behindStar?_return (l : List Char) :
    behindStar? (l ++ ['\r']) = (behindStar? l).map (· ++ ['\r']) := by
  unfold behindStar?
  rw [List.dropWhile_append]
  cases l.dropWhile isMarginBlank with
  | nil => rfl
  | cons c cs =>
      by_cases hc : c = '*'
      · subst hc
        rfl
      · simp [hc]

theorem fitsMargin_return (l : List Char) : fitsMargin (l ++ ['\r']) = fitsMargin l := by
  have hblank : Text.isBlank '\r' = true := by decide
  rw [fitsMargin, fitsMargin, behindStar?_return, Option.isSome_map, Text.isAllBlank,
    Text.isAllBlank, List.all_append, List.all_cons, List.all_nil, hblank, Bool.and_self,
    Bool.and_true]

theorem trimEnd_dropMargin_return (l : List Char) :
    Text.trimEnd (dropMargin (l ++ ['\r'])) = Text.trimEnd (dropMargin l) := by
  rw [dropMargin_eq, dropMargin_eq, behindStar?_return]
  cases behindStar? l with
  | none => exact Text.trimEnd_return l
  | some cs => exact trimEnd_dropSpace_return cs

theorem blockBody_crlf (body : List Char) :
    blockBody ('/' :: '*' :: (Text.crlf body ++ ['*', '/'])) =
      Text.crlf (blockBody ('/' :: '*' :: (body ++ ['*', '/']))) := by
  have hbetween (cs : List Char) :
      (('/' :: '*' :: (cs ++ ['*', '/'])).drop 2).take
        (('/' :: '*' :: (cs ++ ['*', '/'])).length - 4) = cs := by
    simp
  rw [blockBody, blockBody, hbetween, hbetween]
  cases body with
  | nil => rfl
  | cons c cs =>
      by_cases hstar : c = '*'
      · subst hstar
        rfl
      by_cases hc : c = '\n'
      · subst hc
        rfl
      · rw [Text.crlf_cons hc]
        simp [hstar, Text.crlf_cons hc]

/-- How the lines of a block comment end does not show in them once the blanks at their ends are
gone. -/
theorem blockLines_crlf {text text' : List Char}
    (body : blockBody text' = Text.crlf (blockBody text)) :
    (blockLines text').map Text.trimEnd = (blockLines text).map Text.trimEnd := by
  have hlines := Text.forall₂_lines_crlf (blockBody text)
  unfold blockLines
  rw [body]
  generalize Text.lines (blockBody text) = ls, Text.lines (Text.crlf (blockBody text)) = ls'
    at hlines
  cases hlines with
  | nil => rfl
  | @cons first first' rest rest' head tail =>
      have hfirst : Text.trim first' = Text.trim first := head.apply Text.trim_return
      have hfits : rest'.all fitsMargin = rest.all fitsMargin := by
        have hall (ls : List (List Char)) : ls.all fitsMargin = (ls.map fitsMargin).all id := by
          rw [List.all_map, Function.id_comp]
        rw [hall, hall, Text.map_of_returned tail fitsMargin_return]
      have hdrop : rest'.map (Text.trimEnd ∘ dropMargin) = rest.map (Text.trimEnd ∘ dropMargin) :=
        Text.map_of_returned tail trimEnd_dropMargin_return
      have htrim : rest'.map Text.trim = rest.map Text.trim :=
        Text.map_of_returned tail Text.trim_return
      dsimp only
      rw [hfirst, hfits, htrim]
      split
      · rw [List.map_cons, List.map_cons, List.map_map, List.map_map, hdrop]
      · rfl

/-! ### Comments -/

/-- What documentation shows of a comment: whether it is a block, and its lines without the blanks
at their ends. -/
def gist (c : Comment) : Bool × List (List Char) :=
  (c.block,
    (if c.block then blockLines c.text.toList else [lineBody c.text.toList]).map Text.trimEnd)

/-- The lines of the last group among the gists of comments. -/
def groupGist (gists : List (Bool × List (List Char))) : List (List Char) :=
  match gists.getLast? with
  | none => []
  | some last =>
    if last.1 then last.2 else (gists.reverse.takeWhile (!·.1)).reverse.flatMap (·.2)

theorem groupGist_map_gist (comments : List Comment) :
    groupGist (comments.map gist) = (groupLines comments).map Text.trimEnd := by
  unfold groupGist groupLines
  rw [List.getLast?_map]
  cases comments.getLast? with
  | none => rfl
  | some last =>
      simp only [Option.map_some, gist]
      cases hblock : last.block with
      | true => simp
      | false =>
          have hline : ∀ c ∈ lastRun comments,
              (gist c).2 = [Text.trimEnd (lineBody c.text.toList)] := by
            intro c hc
            have hall := List.all_eq_true.mp List.all_takeWhile c (List.mem_reverse.mp hc)
            have hfalse : c.block = false := by simpa using hall
            rw [gist, hfalse]
            rfl
          have hrun : ((comments.map gist).reverse.takeWhile (!·.1)).reverse =
              (lastRun comments).map gist := by
            rw [← List.map_reverse, List.takeWhile_map, ← List.map_reverse]
            rfl
          rw [if_neg Bool.false_ne_true, if_neg Bool.false_ne_true, hrun, List.flatMap_map,
            List.map_map, List.flatMap_congr hline]
          exact List.flatMap_pure_eq_map _ _

/-- Documentation depends on nothing but the gists of the comments. -/
theorem ofComments_of_gists {cs ds : List Comment} (gists : cs.map gist = ds.map gist) :
    ofComments cs = ofComments ds := by
  rw [ofComments, ofComments, ← groupGist_map_gist, ← groupGist_map_gist, gists]

end Documentation

end Proto2
