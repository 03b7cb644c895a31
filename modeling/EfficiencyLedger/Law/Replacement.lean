import EfficiencyLedger.Model.Coordinator
import EfficiencyLedger.Model.Storage

/-!
# Replacing the record

A save that succeeds puts the record in its place (`save_succeeds`). It is not atomic: the old record
is removed first, so a save that is cut before the renaming, or whose renaming fails, leaves nothing
at the path. `replaced_iff` says exactly when the path holds the old record or the new one.
-/

namespace El

open Interrupt

theorem tmpPath_ne (path : String) : path ≠ tmpPath path := by
  intro h
  have hlen := congrArg String.length h
  unfold tmpPath at hlen
  rw [String.length_append] at hlen
  have hsuffix : ".tmp".length = 4 := rfl
  omega

namespace Disk

variable (d : Disk)

/-- The calls on a stream to the file. -/
def OnStream (file : String) : FileOp → Prop
  | .openTrunc f => f = file
  | .write f _ => f = file
  | .close f => f = file
  | _ => False

theorem exec_onStream {file other : String} (hne : other ≠ file) (op : FileOp) (fs : FileSystem)
    (h : OnStream file op) : (d.exec op fs).2 other = fs other := by
  cases op with
  | openTrunc f =>
    obtain rfl : f = file := h
    exact Function.update_of_ne hne _ _
  | write f bytes =>
    obtain rfl : f = file := h
    exact Function.update_of_ne hne _ _
  | close f =>
    obtain rfl : f = file := h
    exact Function.update_of_ne hne _ _
  | remove f => exact h.elim
  | rename source target => exact h.elim

theorem exec_remove_self (file : String) (fs : FileSystem) :
    (d.exec (.remove file) fs).2 file = if d.fails (.remove file) then fs file else none := by
  show (if d.fails (.remove file) then fs else Function.update fs file none) file = _
  by_cases h : d.fails (.remove file) = true
  · rw [if_pos h, if_pos h]
  · rw [if_neg h, if_neg h, Function.update_self]

theorem exec_remove_of_ne {file other : String} (hne : other ≠ file) (fs : FileSystem) :
    (d.exec (.remove file) fs).2 other = fs other := by
  show (if d.fails (.remove file) then fs else Function.update fs file none) other = _
  by_cases h : d.fails (.remove file) = true
  · rw [if_pos h]
  · rw [if_neg h, Function.update_of_ne hne]

theorem run_writeFile_keeps {tmp other : String} (hne : other ≠ tmp) (bytes : Bytes) (n : Nat)
    (fs : FileSystem) : ((writeFile tmp bytes).run d.exec n fs).2 other = fs other := by
  have hcalls : (writeFile tmp bytes).OnlyCalls (OnStream tmp) := by
    refine ⟨rfl, fun e => ?_⟩
    cases e with
    | some message => exact trivial
    | none =>
      refine ⟨rfl, fun e => ?_⟩
      cases e with
      | some message => exact ⟨rfl, fun _ => trivial⟩
      | none => exact ⟨rfl, fun _ => trivial⟩
  exact Program.run_keeps (fun fs => fs other) (fun op fs => d.exec_onStream hne op fs)
    hcalls n fs

/-- As far as the save sees, the temporary file was written. -/
def Written (tmp : String) (bytes : Bytes) : Prop :=
  d.fails (.openTrunc tmp) = false ∧ d.fails (.write tmp bytes) = false

variable {d}

theorem run_writeFile {tmp : String} {bytes : Bytes} (h : d.Written tmp bytes) (n : Nat)
    (fs : FileSystem) :
    ∃ fs', (writeFile tmp bytes).run d.exec (n + 3) fs = (some (none, n), fs') ∧
      fs' tmp = d.leaves (.close tmp) := by
  refine ⟨(d.exec (.close tmp) (d.exec (.write tmp bytes) (d.exec (.openTrunc tmp) fs).2).2).2, ?_,
    Function.update_self _ _ _⟩
  simp only [writeFile, Program.run, exec, h.1, h.2, Bool.false_eq_true, if_false,
    Program.run_done]

theorem run_writeFile_of_lt {tmp : String} {bytes : Bytes} (h : d.Written tmp bytes) {n : Nat}
    (hn : n < 3) (fs : FileSystem) : ((writeFile tmp bytes).run d.exec n fs).1 = none := by
  obtain rfl | rfl | rfl : n = 0 ∨ n = 1 ∨ n = 2 := by omega
  · rfl
  · simp only [writeFile, Program.run, exec, h.1, Bool.false_eq_true, if_false]
  · simp only [writeFile, Program.run, exec, h.1, h.2, Bool.false_eq_true, if_false]

theorem run_writeFile_of_not_written {tmp : String} {bytes : Bytes} (h : ¬d.Written tmp bytes)
    (n m : Nat) (fs : FileSystem) : ((writeFile tmp bytes).run d.exec n fs).1 ≠ some (none, m) := by
  rw [Written, not_and_or, Bool.not_eq_false, Bool.not_eq_false] at h
  by_cases hopen : d.fails (.openTrunc tmp) = true
  · cases n with
    | zero => exact fun hnone => nomatch hnone
    | succ n => simp [writeFile, Program.run, exec, hopen, Program.run_done]
  · have hwrite := h.resolve_left hopen
    rw [Bool.not_eq_true] at hopen
    rcases n with _ | _ | _ | n
    · exact fun hnone => nomatch hnone
    · simp [writeFile, Program.run, exec, hopen]
    · simp [writeFile, Program.run, exec, hopen, hwrite]
    · simp [writeFile, Program.run, exec, hopen, hwrite, Program.run_done]

theorem run_renameFile {tmp path : String} (hne : path ≠ tmp) (n : Nat) (fs : FileSystem) :
    ((renameFile tmp path).run d.exec (n + 1) fs).2 path =
      if d.fails (.rename tmp path) = false ∧ fs tmp ≠ none then fs tmp else fs path := by
  have hcleanup (st : Status) (fs : FileSystem) :
      (Program.run d.exec n (.call (.remove tmp) fun _ => .done st) fs).2 path = fs path := by
    have hcalls : Program.OnlyCalls (fun op => op = .remove tmp)
        (.call (.remove tmp) fun _ => .done st : FileProgram Status) := ⟨rfl, fun _ => trivial⟩
    refine Program.run_keeps (fun fs : FileSystem => fs path) ?_ hcalls n fs
    rintro op fs rfl
    exact d.exec_remove_of_ne hne fs
  unfold renameFile
  rw [Program.run]
  cases htmp : fs tmp with
  | none =>
    rw [if_neg (by simp)]
    simp only [exec, htmp]
    exact hcleanup _ fs
  | some bytes =>
    cases hfails : d.fails (.rename tmp path) with
    | true =>
      rw [if_neg (by simp)]
      simp only [exec, htmp, hfails, if_true]
      exact hcleanup _ fs
    | false =>
      rw [if_pos ⟨rfl, by simp⟩]
      simp only [exec, htmp, hfails, Bool.false_eq_true, if_false, Program.run_done]
      rw [Function.update_of_ne hne, Function.update_self]

theorem run_replaceFile {tmp path : String} (hne : path ≠ tmp) (n : Nat) (fs : FileSystem) :
    ((replaceFile tmp path).run d.exec (n + 1) fs).2 path =
      if 1 ≤ n ∧ d.fails (.rename tmp path) = false ∧ fs tmp ≠ none then fs tmp
      else if d.fails (.remove path) then fs path else none := by
  have hpath := d.exec_remove_self path fs
  have htmp := d.exec_remove_of_ne hne.symm fs
  unfold replaceFile
  rw [Program.run]
  cases n with
  | zero =>
    rw [if_neg (by simp), ← hpath]
    rfl
  | succ n =>
    rw [run_renameFile hne, hpath, htmp]
    simp only [Nat.le_add_left, true_and]

end Disk

/-! ### Saves -/

section Save

variable {d : Disk} (s : EfficiencyLedger) (path : String)

theorem save_of_not_closed {fs : FileSystem} {n : Nat}
    (h : ∀ m, ((writeFile (tmpPath path) s.saveToString).run d.exec n fs).1 ≠ some (none, m)) :
    ((s.save path).run d.exec n fs).2 path = fs path := by
  have hpath := d.run_writeFile_keeps (tmpPath_ne path) s.saveToString n fs
  unfold EfficiencyLedger.save
  rw [Program.run_bind]
  rcases hrun : (writeFile (tmpPath path) s.saveToString).run d.exec n fs with ⟨result, fs'⟩
  rw [hrun] at h hpath
  match result with
  | none => exact hpath
  | some (some st, m) =>
    show (Program.run d.exec m (.done st) fs').2 path = _
    rw [Program.run_done]
    exact hpath
  | some (none, m) => exact absurd rfl (h m)

theorem save_of_written (hw : d.Written (tmpPath path) s.saveToString) (fs : FileSystem) (m : Nat) :
    ∃ fs', (s.save path).run d.exec (m + 3) fs =
        (replaceFile (tmpPath path) path).run d.exec m fs' ∧
      fs' path = fs path ∧ fs' (tmpPath path) = d.leaves (.close (tmpPath path)) := by
  have hpath := d.run_writeFile_keeps (tmpPath_ne path) s.saveToString (m + 3) fs
  obtain ⟨fs', hrun, htmp⟩ := Disk.run_writeFile hw m fs
  rw [hrun] at hpath
  refine ⟨fs', ?_, hpath, htmp⟩
  unfold EfficiencyLedger.save
  rw [Program.run_bind, hrun]

end Save

/-- **When the path holds the old record or the new one**, after a save of which `n` calls completed.
The save has not come to the removal, or it has not removed anything; or the renaming took effect, and
the temporary file held the record by then. -/
theorem replaced_iff (d : Disk) (s : EfficiencyLedger) (path : String) (fs : FileSystem) (n : Nat) :
    (((s.save path).run d.exec n fs).2 path = fs path ∨
      ((s.save path).run d.exec n fs).2 path = some s.saveToString) ↔
    d.fails (.openTrunc (tmpPath path)) ∨ d.fails (.write (tmpPath path) s.saveToString) ∨ n ≤ 3 ∨
      if 5 ≤ n ∧ d.fails (.rename (tmpPath path) path) = false ∧
          d.leaves (.close (tmpPath path)) ≠ none then
        d.leaves (.close (tmpPath path)) = fs path ∨
          d.leaves (.close (tmpPath path)) = some s.saveToString
      else d.fails (.remove path) ∨ fs path = none := by
  by_cases hw : d.Written (tmpPath path) s.saveToString
  · by_cases hn : n ≤ 3
    · have hkept : ((s.save path).run d.exec n fs).2 path = fs path := by
        by_cases hlt : n < 3
        · apply save_of_not_closed
          intro m
          rw [Disk.run_writeFile_of_lt hw hlt fs]
          exact fun h => nomatch h
        · obtain rfl : n = 3 := by omega
          obtain ⟨fs', hrun, hpath, -⟩ := save_of_written s path hw fs 0
          rw [hrun]
          exact hpath
      exact iff_of_true (Or.inl hkept) (Or.inr (Or.inr (Or.inl hn)))
    · obtain ⟨m, rfl⟩ : ∃ m, n = m + 1 + 3 := ⟨n - 4, by omega⟩
      obtain ⟨fs', hrun, hpath, htmp⟩ := save_of_written s path hw fs (m + 1)
      have hfive : 5 ≤ m + 1 + 3 ↔ 1 ≤ m := by omega
      rw [hrun, Disk.run_replaceFile (tmpPath_ne path), htmp, hpath, hw.1, hw.2]
      simp only [Bool.false_eq_true, false_or, hn, hfive]
      split
      · exact Iff.rfl
      · cases hremove : d.fails (.remove path) with
        | true => simp
        | false => simp [eq_comm]
  · have hkept : ((s.save path).run d.exec n fs).2 path = fs path :=
      save_of_not_closed s path fun m => Disk.run_writeFile_of_not_written hw n m fs
    rw [Disk.Written, not_and_or, Bool.not_eq_false, Bool.not_eq_false] at hw
    exact iff_of_true (Or.inl hkept) (or_assoc.mp (Or.inl hw))

/-- A disk on which every call succeeds, and whose streams write what they are given. -/
def soundDisk (record : Bytes) : Disk where
  fails _ := false
  message _ := ""
  leaves
    | .close _ => some record
    | _ => some []

/-- A crash between the removal and the renaming, in a save over an old file: nothing is left at the
path. -/
theorem save_cut_loses :
    ¬∀ (d : Disk) (s : EfficiencyLedger) (path : String) (fs : FileSystem) (n : Nat),
      ((s.save path).run d.exec n fs).2 path = fs path ∨
        ((s.save path).run d.exec n fs).2 path = some s.saveToString := by
  intro h
  let s := EfficiencyLedger.fresh kDefaultLedgerId
  let d := soundDisk s.saveToString
  let fs : FileSystem := Function.update (fun _ => none) "ledger" (some [1])
  have hcut := h d s "ledger" fs 4
  obtain ⟨fs', hrun, -, -⟩ := save_of_written s "ledger" (⟨rfl, rfl⟩ : d.Written _ _) fs 1
  rw [hrun, Disk.run_replaceFile (tmpPath_ne _) 0, if_neg (by omega)] at hcut
  rcases hcut with hold | hnew
  · have hfile : fs "ledger" = some [1] := Function.update_self _ _ _
    rw [hfile] at hold
    cases hold
  · cases hnew

theorem save_succeeds (s : EfficiencyLedger) (path : String) (fs : FileSystem) (n : Nat) :
    ∃ fs', (s.save path).run (soundDisk s.saveToString).exec (n + 5) fs = (some (.success, n), fs') ∧
      fs' path = some s.saveToString ∧ fs' (tmpPath path) = none := by
  have hne := tmpPath_ne path
  obtain ⟨fs₁, hrun, -, htmp⟩ := save_of_written s path
    (⟨rfl, rfl⟩ : (soundDisk s.saveToString).Written _ _) fs (n + 2)
  let fs₂ := Function.update fs₁ path none
  have htmp₂ : fs₂ (tmpPath path) = some s.saveToString :=
    (Function.update_of_ne hne.symm _ _).trans htmp
  refine ⟨Function.update (Function.update fs₂ path (some s.saveToString)) (tmpPath path) none,
    ?_, ?_, Function.update_self _ _ _⟩
  · rw [hrun]
    show (renameFile (tmpPath path) path).run (soundDisk s.saveToString).exec (n + 1) fs₂ = _
    unfold renameFile
    rw [Program.run]
    simp only [Disk.exec, htmp₂, soundDisk, Bool.false_eq_true, if_false, Program.run_done]
  · rw [Function.update_of_ne hne, Function.update_self]

/-- **The coordinator takes its saves to succeed**: its file is what such a save leaves at the path. -/
theorem file_save (c : Coordinator) (path : String) (fs : FileSystem) (n : Nat)
    (hpath : c.hasPath = true) :
    ((c.ledger.save path).run (soundDisk c.ledger.saveToString).exec (n + 5) fs).2 path =
      c.save.file := by
  obtain ⟨fs', hrun, hfile, -⟩ := save_succeeds c.ledger path fs n
  rw [hrun]
  unfold Coordinator.save
  rw [if_pos hpath]
  exact hfile

end El
