import Proto2.Cli.Arguments

/-!
What plain arguments ask for.

Files with requests for JSON before or behind them are taken as such.  A run of files is not to be
broken by an option, so between them no request is understood.
-/

namespace Proto2.Cli

/-- The arguments are the given files, with so many requests for JSON before and behind them. -/
def plainArguments (before after : Nat) (files : List String) : List String :=
  List.replicate before "--json" ++ files ++ List.replicate after "--json"

/-- The argument does not look like an option. -/
def IsFile (argument : String) : Prop :=
  argument.toList.head? ≠ some '-'

instance (argument : String) : Decidable (IsFile argument) :=
  inferInstanceAs (Decidable (_ ≠ _))

namespace Gathered

@[simp] theorem addOperands_nil (g : Gathered) : g.addOperands [] = g := by
  simp [addOperands]

theorem addOperands_files {g : Gathered} {files : List String} (unset : g.files = none)
    (nonempty : files ≠ []) (plain : ∀ p ∈ files, IsFile p) :
    g.addOperands files = { g with files := some files } := by
  have hdashes : "--" ∉ files := fun h => plain _ h rfl
  have hnot : files ≠ ["--"] := by
    rintro rfl
    exact hdashes (List.mem_singleton_self _)
  rw [addOperands, if_pos ⟨by simp [unset], nonempty, hnot⟩, List.erase_of_not_mem hdashes]

end Gathered

theorem classify_of_isFile {argument : String} (h : IsFile argument) :
    classify argument = .ok .operand := by
  unfold classify
  split
  · rename_i heq
    simp [IsFile, heq] at h
  · rename_i heq
    simp [IsFile, heq] at h
  · rfl

theorem classifyAll_cons {argument : String} {a : Argument} (notEnd : argument ≠ "--")
    (h : classify argument = .ok a) (rest : List String) :
    classifyAll (argument :: rest) = (classifyAll rest).map ((argument, a) :: ·) := by
  rw [classifyAll, if_neg notEnd, h]

theorem classifyAll_append {arguments : List String} {a : Argument}
    (each : ∀ p ∈ arguments, p ≠ "--" ∧ classify p = .ok a) (rest : List String) :
    classifyAll (arguments ++ rest) =
      (classifyAll rest).map (arguments.map (·, a) ++ ·) := by
  induction arguments with
  | nil =>
      rw [List.nil_append]
      cases classifyAll rest <;> rfl
  | cons p arguments ih =>
      obtain ⟨⟨hend, hp⟩, hrest⟩ := List.forall_mem_cons.mp each
      rw [List.cons_append, classifyAll_cons hend hp, ih hrest]
      cases classifyAll rest <;> rfl

theorem gather_operands (g : Gathered) (run files : List String)
    (rest : List (String × Argument)) :
    gather g run (files.map (·, .operand) ++ rest) = gather g (run ++ files) rest := by
  induction files generalizing run with
  | nil => simp
  | cons p files ih =>
      rw [List.map_cons, List.cons_append, gather, ih, List.append_assoc, List.singleton_append]

theorem gather_json (g : Gathered) (run : List String) (n : Nat)
    (rest : List (String × Argument)) :
    gather g run (List.replicate (n + 1) ("--json", .option .json none) ++ rest) =
      gather { g.addOperands run with json := true } [] rest := by
  induction n generalizing g run with
  | zero => rfl
  | succ n ih =>
      rw [List.replicate_succ, List.cons_append]
      show gather { g.addOperands run with json := true } [] _ = _
      rw [ih, Gathered.addOperands_nil]

theorem classify_plainArguments {before after : Nat} {files : List String}
    (plain : ∀ p ∈ files, IsFile p) :
    classifyAll (plainArguments before after files) =
      .ok (List.replicate before ("--json", .option .json none) ++
        (files.map (·, .operand) ++ List.replicate after ("--json", .option .json none))) := by
  have hjson : classify "--json" = .ok (.option .json none) := rfl
  have hrequests (n : Nat) : ∀ p ∈ List.replicate n "--json",
      p ≠ "--" ∧ classify p = .ok (.option .json none) := by
    intro p hp
    rw [List.eq_of_mem_replicate hp]
    exact ⟨by decide, hjson⟩
  have hfiles : ∀ p ∈ files, p ≠ "--" ∧ classify p = .ok .operand := fun p hp =>
    ⟨fun h => plain p hp (h ▸ rfl), classify_of_isFile (plain p hp)⟩
  have hlast := classifyAll_append (hrequests after) []
  rw [List.append_nil] at hlast
  rw [plainArguments, List.append_assoc, classifyAll_append (hrequests before),
    classifyAll_append hfiles, hlast]
  simp [classifyAll, Except.map]

/-- Files with requests for JSON before and behind them are read, and printed as asked for. -/
theorem ofArguments_plainArguments {before after : Nat} {files : List String}
    (nonempty : files ≠ []) (plain : ∀ p ∈ files, IsFile p) :
    Command.ofArguments (plainArguments before after files) =
      .read files (decide (0 < before + after)) false := by
  have hfiles (g : Gathered) (unset : g.files = none) (trailing : Nat) :
      gather g [] (files.map (·, .operand) ++
          List.replicate trailing ("--json", .option .json none)) =
        .ok { g with files := some files, json := g.json || decide (0 < trailing) } := by
    have hadd := Gathered.addOperands_files unset nonempty plain
    rw [gather_operands, List.nil_append]
    cases trailing with
    | zero => simp [gather, hadd]
    | succ n =>
        rw [← List.append_nil (List.replicate _ _), gather_json, hadd]
        simp [gather]
  rw [Command.ofArguments, classify_plainArguments plain]
  dsimp only
  cases before with
  | zero =>
      rw [List.replicate_zero, List.nil_append, hfiles _ rfl]
      simp [Gathered.command, Gathered.empty]
  | succ n =>
      rw [gather_json, Gathered.addOperands_nil, hfiles _ rfl]
      simp only [Gathered.command, Gathered.empty, List.isEmpty_nil, if_true, Bool.true_or,
        Command.read.injEq, true_and, and_true]
      exact (decide_eq_true (by omega)).symm

end Proto2.Cli
