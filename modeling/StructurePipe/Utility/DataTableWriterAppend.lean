import StructurePipe.Utility.DataTableSupport
import StructurePipe.Utility.DataTableWriterCalls

/-!
# Appending to an existing file

With `append` the writer opens an existing file in the mode `out | ate`.  Without `in` or `app` this
mode truncates the file, and `ate` then seeks to the end of nothing, so that the write marker is `0`.

* `append_keeps_iff` — **what was in the file survives if and only if there was nothing, or the file
  could not be opened.**
-/

namespace StructurePipe.Utility

open StepRuns

namespace DataTableWriter

/-- The file starts with `content`, now and after the destructor, and what the writer puts into it
starts behind. -/
def KeepsContent (content : Str) (w : DataTableWriter) : Prop :=
  (∃ f, w.disk = some f ∧ content <+: f) ∧ (∃ f, w.destroy.disk = some f ∧ content <+: f) ∧
    (w.myOutStream.isOpen = true → w.myWriteMarker = content.length)

/-- The writer has not been able to open its file. -/
structure Shut (content : Str) (w : DataTableWriter) : Prop where
  isOpen : w.myOutStream.isOpen = false
  good : w.myOutStream.good = false
  openable : w.myOutStream.openable = false
  disk : w.disk = some content

/-- The writer writes from the start of its file. -/
structure FromStart (w : DataTableWriter) : Prop where
  isOpen : w.myOutStream.isOpen = true
  marker : w.myWriteMarker = 0
  disk : w.disk.isSome = true

/-- **What cannot be opened is not written.** -/
theorem lasting_shut (content : Str) : Lasting (Shut content) where
  books := fun h hdisk hstream _ _ => ⟨hstream ▸ h.isOpen, hstream ▸ h.good, hstream ▸ h.openable,
    hdisk ▸ h.disk⟩
  emit h bs := by
    rw [DataTableWriter.emit, if_neg (by simp [h.good])]
    exact h
  seek h := ⟨h.isOpen, h.good, h.openable, h.disk⟩
  reopen h := by
    rw [reopen, if_neg (by simp [h.isOpen]), openStream, h.openable]
    exact ⟨h.isOpen, rfl, h.openable, h.disk⟩

theorem lasting_fromStart : Lasting FromStart where
  books := fun h hdisk hstream hmarker _ =>
    ⟨hstream ▸ h.isOpen, hmarker.trans h.marker, hdisk ▸ h.disk⟩
  emit h bs := by
    rw [DataTableWriter.emit]
    split
    · exact ⟨h.isOpen, h.marker, by simpa using h.disk⟩
    · exact h
  seek h := ⟨h.isOpen, h.marker, h.disk⟩
  reopen h := by
    rw [reopen, if_pos h.isOpen]
    exact h

theorem Shut.keepsContent {content : Str} {w : DataTableWriter} (h : w.Shut content) :
    w.KeepsContent content := by
  refine ⟨⟨content, h.disk, List.prefix_rfl⟩, ⟨content, ?_, List.prefix_rfl⟩, ?_⟩
  · rw [destroy, if_neg (by simp [h.isOpen]), h.disk]
  · exact fun hopen => absurd (hopen.symm.trans h.isOpen) (by simp)

theorem FromStart.keepsContent {w : DataTableWriter} (h : w.FromStart) : w.KeepsContent [] := by
  have hdestroy : w.destroy.disk.isSome = true := by
    rw [destroy]
    split
    · exact (lasting_fromStart.emit h _).disk
    · exact h.disk
  obtain ⟨f, hf⟩ := Option.isSome_iff_exists.mp h.disk
  obtain ⟨f', hf'⟩ := Option.isSome_iff_exists.mp hdestroy
  exact ⟨⟨f, hf, List.nil_prefix⟩, ⟨f', hf', List.nil_prefix⟩, fun _ => h.marker⟩

/-- **What the constructor leaves of the file.** -/
theorem initialise_append (writeDelay : ℕ) (content : Str) :
    (initialise true writeDelay true (some content)).disk = some [] ∧
      (initialise true writeDelay true (some content)).FromStart ∧
      (initialise true writeDelay false (some content)).Shut content :=
  ⟨rfl, ⟨rfl, rfl, rfl⟩, ⟨rfl, rfl, rfl, rfl⟩⟩

end DataTableWriter

namespace Session

/-- What every write keeps holds in every state of a session, if the failing of the stream keeps it. -/
theorem run_keeps {P : DataTableWriter → Prop} (L : DataTableWriter.Lasting P)
    (hfails : ∀ {s s' : Session}, P s.writer → s.step .streamFails = some s' → P s'.writer)
    {s s' : Session} {ops : List SessionOp} (h : P s.writer) (hrun : run Session.step s ops = some s') :
    P s'.writer := by
  refine run_invariant (fun s : Session => P s.writer) (fun _ => True) ?_ h (fun _ _ => trivial) hrun
  intro s op s' hs _ hstep
  by_cases hop : op = .streamFails
  · exact hfails hs (hop ▸ hstep)
  · exact step_keeps L hop hs hstep

end Session

/-- **When appending keeps what was there.**  A writer with `append` is made for a file with any
content and attached to any table, and inserts, notes, `clear` and writes come in any order, with the
stream failing at any time.  In every state of the run the file starts with what was there and would
still do so after the destructor, with the write marker behind it, if and only if nothing was there or
the file could not be opened. -/
theorem append_keeps_iff (t : DataTable) (writeDelay : ℕ) (openable : Bool) (content : Str)
    (ops : List SessionOp) :
    (∀ n s, run Session.step ⟨t, DataTableWriter.initialise true writeDelay openable (some content)⟩
        (ops.take n) = some s → s.writer.KeepsContent content) ↔
      content = [] ∨ openable = false := by
  obtain ⟨hdisk, hstart, hshut⟩ := DataTableWriter.initialise_append writeDelay content
  cases openable with
  | false =>
      refine iff_of_true (fun n s hrun => ?_) (Or.inr rfl)
      refine (Session.run_keeps (DataTableWriter.lasting_shut content) ?_ hshut hrun).keepsContent
      intro s s' h hstep
      rw [← Option.some.inj hstep]
      exact ⟨h.isOpen, rfl, rfl, h.disk⟩
  | true =>
      constructor
      · intro h
        obtain ⟨⟨f, hf, hprefix⟩, _⟩ := h 0 _ rfl
        have hf' : some [] = some f := hdisk.symm.trans hf
        rw [← Option.some.inj hf'] at hprefix
        exact Or.inl (List.prefix_nil.mp hprefix)
      · intro h n s hrun
        obtain rfl : content = [] := h.resolve_right (by simp)
        refine (Session.run_keeps DataTableWriter.lasting_fromStart ?_ hstart hrun).keepsContent
        intro s s' h hstep
        rw [← Option.some.inj hstep]
        exact ⟨h.isOpen, h.marker, h.disk⟩

/-- **An existing file is truncated.**  The old line is gone as soon as the writer is made, and the table
is written from the start of the file. -/
theorem append_truncates :
    (DataTableWriter.initialise true 50 true (some "old\n".toList)).disk = some [] ∧
    ∃ s, run Session.step ⟨{}, DataTableWriter.initialise true 50 true (some "old\n".toList)⟩
        [.table (.insert .rowFirst ['a'] ['x'] ['1']), .write] = some s ∧
      s.writer.disk = some "# [key] x\na 1".toList ∧
      s.writer.destroy.disk = some "# [key] x\na 1\n".toList ∧
      ¬ s.writer.KeepsContent "old\n".toList := by
  refine ⟨rfl, _, rfl, rfl, rfl, ?_⟩
  rintro ⟨⟨f, hf, hprefix⟩, _⟩
  rw [← Option.some.inj hf] at hprefix
  exact absurd hprefix (by decide)

end StructurePipe.Utility
