/-
# Operations one at a time

What the I/O primitives do when nobody else runs and no request faults. Each
rule names the states in which the task is suspended, so that a crash condition
can be checked there, and leaves the rest to the caller.
-/
import BeyondKv.Restart

namespace BeyondKv

open Std (ExtTreeMap)
open Async

/-- The write cell of a file agrees with its contents. -/
def Tight (f : LogFile) (s : NsState) : Prop :=
  s.cells f.ino = ⟨(s.disk.inodes f.ino).length, false⟩

/-! ## Requests -/

section requests
variable {Cr : NsState → Prop} {s : NsState} {α : Type} {Q : Except EngineError α → NsState → Prop}

/-- The state after a request that left the directory as `d`. -/
def NsState.after (s : NsState) (d : Disk) : NsState := { s with tick := s.tick + 1, disk := d }

theorem perform_quiet (hf : ∀ n, s.fault n = none) (op : Disk → Except IoError α × Disk) :
    perform op s = ((op s.disk).1, s.after (op s.disk).2) := by
  simp [perform, hf, NsState.after]

theorem wpc_io {op : Disk → Except IoError α × Disk}
    {Q : Except IoError α → NsState → Prop} (hf : ∀ n, s.fault n = none) :
    wpc Cr (io op) Q s ↔ Cr s ∧ Cr (s.after (op s.disk).2)
      ∧ Q (op s.disk).1 (s.after (op s.disk).2) := by
  simp only [io, wpc_seq, wpc_yield, wpc_step, wpc_pure, perform_quiet hf]

theorem wpc_io_of {op : Disk → Except IoError α × Disk}
    {Q : Except IoError α → NsState → Prop} (hf : ∀ n, s.fault n = none) (hbefore : Cr s)
    (hafter : Cr (s.after (op s.disk).2)) (hok : Q (op s.disk).1 (s.after (op s.disk).2)) :
    wpc Cr (io op) Q s := (wpc_io hf).mpr ⟨hbefore, hafter, hok⟩

/-- An `io::Error` becomes `EngineError::Io`. -/
def ofIo {α : Type} : Except IoError α → Except EngineError α
  | .ok a => .ok a
  | .error e => .error (.io e)

@[simp] theorem ofIo_ok (a : α) : ofIo (.ok a : Except IoError α) = .ok a := rfl

theorem wpx_ioAct {p : Task (Except IoError α)} :
    wpx Cr (ioAct p) Q s ↔ wpc Cr p (fun r s => Q (ofIo r) s) s := by
  unfold ioAct
  rw [wpx_mk, wpc_seq]
  refine iff_of_eq (congrArg (fun R => wpc Cr p R s) (funext fun r => funext fun s => ?_))
  cases r with
  | ok a => exact propext (wpc_pure _ _ _)
  | error e => exact propext (wpc_pure _ _ _)

@[simp] theorem wpx_liftTask {p : Task α} :
    wpx Cr (lift p) Q s ↔ wpc Cr p (fun a s => Q (.ok a) s) s := wpx_lift p Q s

theorem wpc_syncDir {Q : Unit → NsState → Prop} (hf : ∀ n, s.fault n = none) :
    wpc Cr syncDir Q s ↔ Cr s ∧ Cr (s.after s.disk) ∧ Q () (s.after s.disk) := by
  simp only [syncDir, wpc_seq, wpc_pure, wpc_io hf]

theorem wpx_sync {f : LogFile} {Q : Except EngineError Nat → NsState → Prop}
    (hf : ∀ n, s.fault n = none) :
    wpx Cr f.sync Q s ↔ Cr s ∧ Cr (s.after s.disk) ∧ Q (.ok s.tick) (s.after s.disk) := by
  simp only [LogFile.sync, wpx_ioAct, wpc_seq, wpc_yield, wpc_gets, wpc_at, wpc_step,
    perform_quiet hf,
    wpc_pure, ofIo_ok]

@[simp] theorem wpc_dropAll {rs : List Resource} {Q : Unit → NsState → Prop} :
    wpc Cr (dropAll rs) Q s ↔ Q () s := by
  induction rs with
  | nil => exact wpc_pure ..
  | cons r rs ih => simp only [dropAll, wpc_seq, wpc_at, ih]

/-- Both error arms of a guard run the same release. -/
theorem wpx_guarded {rs : List Resource} {release : NsState → NsState} {body : Act α} :
    wpx Cr (guarded rs release body) Q s ↔ wpx Cr body (fun r s => Q r (release s)) s := by
  simp only [guarded, wpx_mk, wpc_seq, wpc_modify, wpc_pure, wpc_run, wpc_dropAll]

/-- A free lock is taken at once. -/
theorem wpc_acquire_free {r : Resource} {locked : NsState → Bool} {lock : NsState → NsState}
    {Q : Unit → NsState → Prop} (hfree : locked s = false) :
    wpc Cr (acquire r locked lock) Q s ↔ Q () (lock s) := by
  simp only [acquire, wpc_seq, wpc_gets, hfree, Bool.false_eq_true, if_false, wpc_modify, wpc_at]

end requests

/-! ## Appends -/

section append
variable {Cr : NsState → Prop} {s : NsState}

/-- The state with the contents and the cell of one file replaced. -/
def LogFile.setFile (f : LogFile) (b : Bytes) (s : NsState) : NsState :=
  { s with
    disk := s.disk.setBytes f.ino b
    cells := Function.update s.cells f.ino ⟨b.length, false⟩ }

/-- The offset is reserved and the write of `buf` is in the ring. -/
def LogFile.submitted (f : LogFile) (buf : Bytes) (s : NsState) : NsState :=
  { s with
    tick := s.tick + 1
    cells := Function.update s.cells f.ino ⟨(s.disk.inodes f.ino).length + buf.length, false⟩
    ring := [⟨s.tick, f.ino, (s.disk.inodes f.ino).length, buf, false⟩] }

/-- The kernel is done with the write, the completion is not reaped. -/
def LogFile.written (f : LogFile) (buf : Bytes) (s : NsState) : NsState :=
  { f.setFile (s.disk.inodes f.ino ++ buf) s with
    tick := s.tick + 2
    ring := [⟨s.tick, f.ino, (s.disk.inodes f.ino).length, buf, true⟩] }

/-- The append is over. -/
def LogFile.appended (f : LogFile) (buf : Bytes) (s : NsState) : NsState :=
  { f.setFile (s.disk.inodes f.ino ++ buf) s with tick := s.tick + 2 }

/-- The kernel has refused the write. -/
def LogFile.refused (f : LogFile) (buf : Bytes) (s : NsState) : NsState :=
  { f.submitted buf s with
    tick := s.tick + 2
    ring := [⟨s.tick, f.ino, (s.disk.inodes f.ino).length, buf, true⟩] }

/-- An append to a file nobody else writes: the bytes go to its end. A write beyond the
largest file size is an I/O error, about which `Q` must ask nothing. -/
theorem wpx_append {f : LogFile} {buf : Bytes} {Q : Except EngineError Nat → NsState → Prop}
    (hf : ∀ n, s.fault n = none) (hring : s.ring = []) (htight : Tight f s)
    (hsub : Cr (f.submitted buf s)) (hwritten : Cr (f.written buf s))
    (hrefused : Cr (f.refused buf s))
    (hio : maxFileSize < (s.disk.inodes f.ino).length + buf.length → ∀ e s, Q (.error (.io e)) s)
    (hok : (s.disk.inodes f.ino).length + buf.length ≤ maxFileSize →
      Q (.ok (s.disk.inodes f.ino).length) (f.appended buf s)) :
    wpx Cr (f.append buf) Q s := by
  have hcell : s.cells f.ino = ⟨(s.disk.inodes f.ino).length, false⟩ := htight
  have hres : f.reserve buf.length s = ((s.disk.inodes f.ino).length,
      LogFile.setCell f.ino ⟨(s.disk.inodes f.ino).length + buf.length, false⟩ s) := by
    simp [LogFile.reserve, hcell]
  have hsubmit : submitWrite f.ino (s.disk.inodes f.ino).length buf
      (LogFile.setCell f.ino ⟨(s.disk.inodes f.ino).length + buf.length, false⟩ s)
      = (s.tick, f.submitted buf s) := by
    simp [submitWrite, LogFile.setCell, LogFile.submitted, hring]
  simp only [LogFile.append, wpx_seq, wpx_liftTask, wpc_gets, hcell, onOk_ok, Bool.false_eq_true,
    if_false, wpc_step, writeAllAt, wpc_seq, wpc_yield, wpc_at, wpc_modify, hres, hsubmit,
    wpc_pure]
  refine ⟨hsub, ?_⟩
  by_cases hsize : (s.disk.inodes f.ino).length + buf.length ≤ maxFileSize
  · have hperf : performWrite s.tick f.ino (s.disk.inodes f.ino).length buf (f.submitted buf s)
        = (.ok (), f.written buf s) := by
      simp [performWrite, LogFile.submitted, LogFile.written, LogFile.setFile, hf,
        Nat.not_lt.mpr hsize, takePending, Disk.writeAt, Bytes.writeAt_end]
    rw [hperf]
    refine ⟨hwritten, ?_⟩
    simp only [wpx_pure]
    have hreap : reapWrite s.tick (f.written buf s) = f.appended buf s := by
      simp [reapWrite, LogFile.written, LogFile.appended, LogFile.setFile, reapPending, hring]
    rw [hreap]
    exact hok hsize
  · have hperf : performWrite s.tick f.ino (s.disk.inodes f.ino).length buf (f.submitted buf s)
        = (.error (.other "file too large"), f.refused buf s) := by
      simp [performWrite, LogFile.submitted, LogFile.refused, hf, Nat.lt_of_not_le hsize,
        takePending]
    rw [hperf]
    refine ⟨hrefused, ?_⟩
    simp only [wpx_seq, wpx_liftTask, wpc_modify, onOk_ok, wpx_throw]
    exact hio (Nat.lt_of_not_le hsize) _ _

end append

/-! ## Footers -/

section footer
variable {Cr : NsState → Prop} {s : NsState}

/-- The states a task passes through while it writes a footer to `f`: some of the footer
is in the file, and at most the next piece of it is in the ring. -/
def Sealing (P : Prims) (f : LogFile) (entries : List FooterEntry) (s s' : NsState) : Prop :=
  ∃ done rest, footerBytes P entries = done ++ rest
    ∧ s'.disk = s.disk.setBytes f.ino (s.disk.inodes f.ino ++ done)
    ∧ ((∀ w ∈ s'.ring, w.taken = true)
      ∨ ∃ req data, data <+: rest
        ∧ s'.ring = [⟨req, f.ino, (s.disk.inodes f.ino ++ done).length, data, false⟩])

/-- The file with its footer. -/
def LogFile.footered (P : Prims) (f : LogFile) (entries : List FooterEntry) (s : NsState) :
    NsState :=
  { f.setFile (s.disk.inodes f.ino ++ footerBytes P entries) s with tick := s.tick + 5 }

theorem wpx_writeFooter {P : Prims} {f : LogFile} {entries : List FooterEntry}
    {Q : Except EngineError Nat → NsState → Prop}
    (hf : ∀ n, s.fault n = none) (hring : s.ring = []) (htight : Tight f s)
    (hcr : ∀ s', Sealing P f entries s s' → Cr s')
    (hio : maxFileSize < (s.disk.inodes f.ino).length + (footerBytes P entries).length →
      ∀ e s, Q (.error (.io e)) s)
    (hok : (s.disk.inodes f.ino).length + (footerBytes P entries).length ≤ maxFileSize →
      ∀ req, Q (.ok req) (f.footered P entries s)) :
    wpx Cr (f.writeFooter P entries) Q s := by
  have hbytes : footerBytes P entries
      = footerBody entries ++ footerTrailer P (footerBody entries) := rfl
  simp only [LogFile.writeFooter, wpx_seq]
  generalize footerTrailer P (footerBody entries) = trailer at hbytes ⊢
  generalize footerBody entries = body at hbytes ⊢
  have hnil : footerBytes P entries = [] ++ (body ++ trailer) := by rw [hbytes, List.nil_append]
  have hsame : ∀ s' : NsState, s'.disk = s.disk →
      s'.disk = s.disk.setBytes f.ino (s.disk.inodes f.ino ++ []) := by
    intro s' h
    rw [h, List.append_nil, Disk.setBytes_self]
  refine wpx_append hf hring htight (hcr _ ?_) (hcr _ ?_) (hcr _ ?_) (fun hbig e s => hio ?_ e s) ?_
  · exact ⟨[], body ++ trailer, hnil, hsame _ rfl, .inr ⟨s.tick, body, List.prefix_append _ _, by
      rw [List.append_nil]; rfl⟩⟩
  · exact ⟨body, trailer, hbytes, rfl, .inl (by simp [LogFile.written])⟩
  · exact ⟨[], body ++ trailer, hnil, hsame _ rfl, .inl (by simp [LogFile.refused])⟩
  · simp only [hbytes, List.length_append]; omega
  intro hsize
  have hin : (f.appended body s).disk.inodes f.ino = s.disk.inodes f.ino ++ body := by
    simp [LogFile.appended, LogFile.setFile]
  have htight' : Tight f (f.appended body s) := by
    simp [Tight, LogFile.appended, LogFile.setFile]
  simp only [onOk_ok]
  refine wpx_append hf hring htight' ?_ ?_ ?_ (fun hbig e s => hio ?_ e s) ?_
  · exact hcr _ ⟨body, trailer, hbytes, rfl,
      .inr ⟨(f.appended body s).tick, trailer, List.prefix_rfl,
        by simp [LogFile.submitted, hin]⟩⟩
  · exact hcr _ ⟨body ++ trailer, [], by simp [hbytes], by
      simp [LogFile.written, LogFile.setFile, LogFile.appended],
      .inl (by simp [LogFile.written])⟩
  · exact hcr _ ⟨body, trailer, hbytes, rfl, .inl (by simp [LogFile.refused])⟩
  · rw [hin] at hbig
    simp only [hbytes, List.length_append] at hbig ⊢
    omega
  intro hsize'
  have hseal : ∀ s' :
    NsState, s'.disk = s.disk.setBytes f.ino (s.disk.inodes f.ino ++ (body ++ trailer)) →
      s'.ring = [] → Cr s' := fun s' hd hr =>
    hcr s' ⟨body ++ trailer, [], by simp [hbytes], hd, .inl (by simp [hr])⟩
  have hd : (f.appended trailer (f.appended body s)).disk
      = s.disk.setBytes f.ino (s.disk.inodes f.ino ++ (body ++ trailer)) := by
    simp [LogFile.setFile, LogFile.appended]
  simp only [onOk_ok]
  have hf' : ∀ n, (f.appended trailer (f.appended body s)).fault n = none := hf
  rw [wpx_sync hf']
  refine ⟨hseal _ hd hring, hseal _ hd hring, ?_⟩
  have hfin : (f.appended trailer (f.appended body s)).after
      (f.appended trailer (f.appended body s)).disk = f.footered P entries s := by
    simp [NsState.after, LogFile.footered, LogFile.appended, LogFile.setFile, hbytes]
  rw [hfin]
  refine hok ?_ _
  rw [hin] at hsize'
  simp only [hbytes, List.length_append] at hsize' ⊢
  omega

end footer

/-! ## Opening and reading files -/

section files
variable {Cr : NsState → Prop} {s : NsState}

/-- `open_rw` under a new name: an empty file. -/
theorem wpx_openRw_new {id : Nat} {Q : Except EngineError LogFile → NsState → Prop}
    (hf : ∀ n, s.fault n = none) (hnew : s.disk.data[id]? = none)
    (hcr : ∀ s', s'.ring = s.ring →
      (s'.disk = s.disk ∨ s'.disk = (s.disk.openCreateData id).2) → Cr s')
    (hok : Q (.ok ⟨id, s.disk.nextIno⟩)
      { s with
        tick := s.tick + 2
        disk := (s.disk.openCreateData id).2
        cells := Function.update s.cells s.disk.nextIno ⟨0, false⟩ }) :
    wpx Cr (LogFile.openRw id) Q s := by
  have hcreate : s.disk.openCreateData id = (s.disk.nextIno, (s.disk.openCreateData id).2) := by
    simp [Disk.openCreateData, hnew]
  have hempty : (s.disk.openCreateData id).2.inodes s.disk.nextIno = [] := by
    simp [Disk.openCreateData, hnew]
  have hf' : ∀ n, (s.after (s.disk.openCreateData id).2).fault n = none := hf
  simp only [LogFile.openRw, wpx_seq, wpx_ioAct, wpc_io hf, ofIo_ok, onOk_ok, LogFile.wrap,
    LogFile.size, wpc_io hf', wpx_liftTask, wpc_modify, wpx_pure]
  refine ⟨hcr _ rfl (.inl rfl), hcr _ rfl (.inr rfl), hcr _ rfl (.inr rfl),
    hcr _ rfl (.inr rfl), ?_⟩
  rw [hcreate]
  simp only [NsState.after, LogFile.setCell, hempty, List.length_nil]
  exact hok

end files

end BeyondKv
