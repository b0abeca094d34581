import PlainSync.Log.File
import PlainSync.Proofs.Files.Places
import PlainSync.Proofs.Machine.Triples

/-!
# Writing a log on a disk

What a log has been given stands in its file, but for what it keeps back; after a flush all of
it does. Writing a log changes no other file and no directory, whether or not it succeeds.
-/

namespace PlainSync

open PlainSync.Action (eval eval_bind Triple)
open Disk (SameBut)

/-- No piece of a file fails to be written. -/
def World.WritesPieces (world : World) : Prop := ∀ count, world.pieceFault count = none

namespace LogFile

variable {world : World} {disk : Disk} {log : LogFile OpenFile} {place : Location}

/-- A log begins with an empty file where its path leads. -/
theorem run_create {path : Path} (hplace : world.disk.placeToWrite path = .ok place) :
    (create path : WorldM _) world =
      (.ok ⟨⟨place, 0⟩, []⟩, world.setDisk (world.disk.put place (.file []))) := by
  have hcreate : world.disk.create path = .ok (⟨place, 0⟩, world.disk.put place (.file [])) := by
    unfold Disk.create
    rw [hplace]
    rfl
  change ((world.createFile path).1.map _, (world.createFile path).2) = _
  unfold World.createFile
  rw [hcreate]
  rfl

/-- A log cannot begin where its path does not lead to a place for a file. -/
theorem run_create_error {path : Path} {error : FileError}
    (hplace : world.disk.placeToWrite path = .error error) :
    (create path : WorldM _) world = (.error error, world) := by
  have hcreate : world.disk.create path = .error error := by
    unfold Disk.create
    rw [hplace]
    rfl
  change ((world.createFile path).1.map _, (world.createFile path).2) = _
  unfold World.createFile
  rw [hcreate]
  rfl

/-! ## Pieces of a file -/

/-- A chunk that is written at the end is appended. -/
theorem overwrite_length (content chunk : Bytes) :
    overwrite content content.length chunk = content ++ chunk := by
  unfold overwrite
  rw [List.take_length, Nat.sub_self, List.replicate_zero, List.append_nil,
    List.drop_eq_nil_of_le (Nat.le_add_right _ _), List.append_nil]

/-- What is written behind the content of a file is added to it. -/
theorem append_eq {sent : Bytes} (hsent : disk.node? place = some (.file sent)) (chunk : Bytes) :
    disk.append ⟨place, sent.length⟩ chunk =
      (⟨place, (sent ++ chunk).length⟩, disk.put place (.file (sent ++ chunk))) := by
  have hcontent : disk.contentAt place = sent := by
    unfold Disk.contentAt
    rw [hsent]
  unfold Disk.append
  rw [hcontent, overwrite_length, List.length_append]

/-- A file that is written holds what was written. -/
theorem node?_put_file {sent : Bytes} (hsent : disk.node? place = some (.file sent))
    (content : Bytes) :
    (disk.put place (.file content)).node? place = some (.file content) := by
  apply Disk.node?_put_self
  rintro rfl
  cases hsent

/-- Where nothing fails, a piece is added to its file. -/
theorem append_of_writesPieces {sent : Bytes} (hwrites : world.WritesPieces)
    (hsent : world.disk.node? place = some (.file sent)) (chunk : Bytes) :
    world.append ⟨place, sent.length⟩ chunk =
      ({ handle := ⟨place, (sent ++ chunk).length⟩ },
        { world with
          disk := world.disk.put place (.file (sent ++ chunk)), pieces := world.pieces + 1 }) := by
  unfold World.append
  rw [hwrites world.pieces]
  simp only [WriteFault.written]
  rw [append_eq hsent, List.drop_length]
  rfl

/-- Sending a text to the file of a log writes a piece of it. -/
theorem eval_send (text : Bytes) (log : LogFile OpenFile) (world : World) :
    eval (send text) log world =
      ((.ok ((world.append log.handle text).1.left, (world.append log.handle text).1.error?),
        { log with handle := (world.append log.handle text).1.handle }),
        (world.append log.handle text).2) := rfl

/-! ## Logs that can be written -/

/-- The text of a log stands in the file at its place, but for what is kept back, and nothing fails
that is written to it. -/
structure Holds (place : Location) (text : Bytes) (log : LogFile OpenFile) (world : World) :
    Prop where
  exists_sent : ∃ sent, world.disk.node? place = some (.file sent) ∧
    log.handle = ⟨place, sent.length⟩ ∧ sent ++ log.pending = text
  writesPieces : world.WritesPieces

/-- A log has a text, and the disk differs from the given one only in the file of the log. -/
structure Extends (start : Disk) (place : Location) (text : Bytes) (log : LogFile OpenFile)
    (world : World) : Prop extends Holds place text log world where
  sameBut : SameBut (some place) start world.disk

/-- A log that holds a text extends it. -/
theorem Holds.extends {text : Bytes} (hlog : Holds place text log world) :
    Extends world.disk place text log world :=
  ⟨hlog, .refl _ _⟩

section Extending

variable {start : Disk} {text : Bytes} {I : LogFile OpenFile → World → Prop}

/-- A log has all its text in the file when nothing is kept back. -/
theorem Holds.node?_of_pending_nil (hlog : Holds place text log world)
    (hpending : log.pending = []) : world.disk.node? place = some (.file text) := by
  obtain ⟨sent, hsent, -, htext⟩ := hlog.exists_sent
  rw [hpending, List.append_nil] at htext
  exact htext ▸ hsent

/-- A text that is kept back behind the others belongs to the log. -/
theorem Extends.keepBack (hlog : Extends start place text log world) (chunk : Bytes) :
    Extends start place (text ++ chunk) { log with pending := log.pending ++ chunk } world := by
  obtain ⟨⟨⟨sent, hsent, hhandle, htext⟩, hwrites⟩, hsame⟩ := hlog
  refine ⟨⟨⟨sent, hsent, hhandle, ?_⟩, hwrites⟩, hsame⟩
  rw [← List.append_assoc, htext]

/-- A text that is sent stands behind what was sent before. Another text may be kept back
meanwhile. -/
theorem triple_send (chunk pending : Bytes) :
    Triple I (fun log world => log.pending = pending ∧
        Extends start place text { log with pending := [] } world)
      (send (m := WorldM) chunk) fun result log world =>
        result = ([], none) ∧ log.pending = pending ∧
          Extends start place (text ++ chunk) { log with pending := [] } world := by
  refine ⟨fun log world hlog => ?_⟩
  obtain ⟨hpending, ⟨⟨sent, hsent, hhandle, htext⟩, hwrites⟩, hsame⟩ := hlog
  have hnode : world.disk.node? place ≠ some .directory := by
    rw [hsent]
    exact nofun
  rw [List.append_nil] at htext
  subst htext
  have hplace : log.handle = ⟨place, sent.length⟩ := hhandle
  rw [eval_send, hplace, append_of_writesPieces hwrites hsent chunk]
  exact ⟨rfl, hpending, ⟨⟨sent ++ chunk, node?_put_file hsent _, rfl, List.append_nil _⟩, hwrites⟩,
    hsame.trans (Disk.sameBut_put _ hnode)⟩

/-- A flush leaves the whole text in the file. -/
theorem triple_flush :
    Triple I (Extends start place text) (flush (m := WorldM)) fun _ log world =>
      log.pending = [] ∧ Extends start place text log world := by
  unfold flush
  refine .bind .get fun log => ?_
  by_cases hpending : log.pending.isEmpty = true
  · rw [hpending]
    refine .pure ?_
    rintro log' world ⟨rfl, hlog⟩
    exact ⟨List.isEmpty_iff.mp hpending, hlog⟩
  · rw [Bool.not_eq_true] at hpending
    rw [hpending]
    -- What was sent before is the text without what is kept back now.
    refine .weaken (P := fun log' world => ∃ sent, sent ++ log.pending = text ∧
      log'.pending = log.pending ∧ Extends start place sent { log' with pending := [] } world)
      (.ofExists fun sent => .assume fun htext => ?_) ?_ fun _ _ _ => id
    · refine .bind (triple_send log.pending log.pending) fun result => .assume ?_
      rintro rfl
      refine .bind (.modify (Q := fun _ log world => log.pending = [] ∧
        Extends start place text log world) ?_) fun _ => .pure fun _ _ => id
      rintro log' world ⟨-, hlog⟩
      exact ⟨rfl, htext ▸ hlog⟩
    · rintro log' world ⟨rfl, ⟨⟨sent, hsent, hhandle, htext⟩, hwrites⟩, hsame⟩
      exact ⟨sent, htext, rfl, ⟨⟨sent, hsent, hhandle, List.append_nil sent⟩, hwrites⟩, hsame⟩

/-- A text is kept back behind what is kept back already, unless it fills a block and nothing is
kept back. -/
theorem triple_keep (chunk : Bytes) :
    Triple I (fun log world => (capacity ≤ chunk.length → log.pending = []) ∧
        Extends start place text log world)
      (keep (m := WorldM) chunk) fun _ => Extends start place (text ++ chunk) := by
  unfold keep
  split
  · exact .modify fun log world hlog => hlog.2.keepBack chunk
  · next hlong =>
    refine .weaken (P := fun log world => log.pending = [] ∧
        Extends start place text { log with pending := [] } world)
      (.bind (triple_send chunk []) fun result => .assume ?_) ?_ fun _ _ _ => id
    · rintro rfl
      refine .pure ?_
      rintro ⟨handle, pending⟩ world ⟨rfl, hlog⟩
      exact hlog
    · rintro log world ⟨hempty, hlog⟩
      have hpending := hempty (Nat.le_of_not_lt hlong)
      exact ⟨hpending, hpending ▸ hlog⟩

/-- A text that is put to a log follows what the log had before. -/
theorem triple_put (chunk : Bytes) :
    Triple I (Extends start place text) (put (m := WorldM) chunk)
      fun _ => Extends start place (text ++ chunk) := by
  unfold put
  refine .bind .get fun log => ?_
  split
  · refine .bind (triple_flush.weaken (fun _ _ => And.right) fun _ _ _ => id) fun _ =>
      (triple_keep chunk).weaken (fun log' world hlog => ?_) fun _ _ _ => id
    exact ⟨fun _ => hlog.1, hlog.2⟩
  · next hfits =>
    refine (triple_keep chunk).weaken ?_ fun _ _ _ => id
    rintro log' world ⟨rfl, hlog⟩
    refine ⟨fun hlong => List.length_eq_zero_iff.mp ?_, hlog⟩
    omega

/-- A line that is put to a log follows what the log had before, with a line end behind it. -/
theorem triple_putLine (line : String) :
    Triple I (Extends start place text) (putLine (m := WorldM) line)
      fun _ => Extends start place (text ++ Bytes.ofString line ++ [Byte.newline]) :=
  .bind (triple_put (Bytes.ofString line)) fun _ => triple_put [Byte.newline]

end Extending

/-- A text that fits beside what is kept back is kept back as well. -/
theorem eval_put_of_fits {log : LogFile OpenFile} {chunk : Bytes}
    (hfits : log.pending.length + chunk.length < capacity) (world : World) :
    eval (put (m := WorldM) chunk) log world =
      ((.ok (), { log with pending := log.pending ++ chunk }), world) := by
  have hroom : ¬ capacity < log.pending.length + chunk.length := Nat.lt_asymm hfits
  have hshort : chunk.length < capacity := Nat.lt_of_le_of_lt (Nat.le_add_left _ _) hfits
  have hput : eval (put (m := WorldM) chunk) log world = eval (do
      if capacity < log.pending.length + chunk.length then flush
      keep (m := WorldM) chunk) log world := rfl
  rw [hput, if_neg hroom, keep, if_pos hshort]
  rfl

/-- A line that fits is only kept for later. -/
theorem eval_putLine_of_fits {log : LogFile OpenFile} {line : String}
    (hfits : log.pending.length + (Bytes.ofString line).length + 1 < capacity) (world : World) :
    eval (putLine (m := WorldM) line) log world =
      ((.ok (), { log with pending := log.pending ++ Bytes.ofString line ++ [Byte.newline] }),
        world) := by
  rw [putLine, eval_bind, eval_put_of_fits (by omega)]
  apply eval_put_of_fits
  rw [List.length_append]
  exact hfits

/-! ## Logs at a place -/

/-- A log writes at a place, and the disk differs from the given one only in the file there, if the
place is no directory. -/
structure WritesAt (place : Location) (start : Disk) (log : LogFile OpenFile) (world : World) :
    Prop where
  place_eq : log.handle.place = place
  sameBut : start.node? place ≠ some .directory → SameBut (some place) start world.disk

section Writing

variable {start : Disk}

/-- Sending a text writes at the place of the log, whether or not all of it is written. -/
theorem writesAt_send (chunk : Bytes) :
    Triple (WritesAt place start) (WritesAt place start) (send (m := WorldM) chunk)
      fun _ => WritesAt place start := by
  refine ⟨fun log world hlog => ⟨hlog.place_eq, fun hnode => ?_⟩⟩
  obtain ⟨rfl, hsame⟩ := hlog
  have hnow := mt ((hsame hnode).node? log.handle.place).mp hnode
  exact (hsame hnode).trans (Disk.sameBut_put _ hnow)

/-- An error that is raised changes nothing. -/
theorem writesAt_throw (error? : Option FileError) :
    Triple (WritesAt place start) (WritesAt place start)
      (do if let some error := error? then throw error : LogM WorldM Unit)
      fun _ => WritesAt place start := by
  cases error? with
  | none => exact .pure fun _ _ => id
  | some error => exact .throw fun _ _ => id

/-- Flushing writes at the place of the log only. -/
theorem writesAt_flush :
    Triple (WritesAt place start) (WritesAt place start) (flush (m := WorldM))
      fun _ => WritesAt place start := by
  unfold flush
  refine .bind .get fun log => .weaken (P := WritesAt place start) ?_ (fun _ _ => And.right)
    fun _ _ _ => id
  split
  · exact .bind (writesAt_send _) fun result => .bind (.modify fun _ _ hlog => ⟨hlog.1, hlog.2⟩)
      fun _ => writesAt_throw result.2
  · exact .pure fun _ _ => id

/-- Sending a chunk writes at the place of the log only. -/
theorem writesAt_put (chunk : Bytes) :
    Triple (WritesAt place start) (WritesAt place start) (put (m := WorldM) chunk)
      fun _ => WritesAt place start := by
  have hkeep : Triple (WritesAt place start) (WritesAt place start) (keep (m := WorldM) chunk)
      fun _ => WritesAt place start := by
    unfold keep
    split
    · exact .modify fun _ _ hlog => ⟨hlog.1, hlog.2⟩
    · exact .bind (writesAt_send chunk) fun result => writesAt_throw result.2
  unfold put
  refine .bind .get fun log => .weaken (P := WritesAt place start) ?_ (fun _ _ => And.right)
    fun _ _ _ => id
  split
  · exact .bind writesAt_flush fun _ => hkeep
  · exact hkeep

/-- A line is written at the place of the log, whether or not all of it is. -/
theorem writesAt_putLine (line : String) :
    Triple (WritesAt place start) (WritesAt place start) (putLine (m := WorldM) line)
      fun _ => WritesAt place start :=
  .bind (writesAt_put _) fun _ => writesAt_put _

end Writing

end LogFile

end PlainSync
