import BittorrentClient.Theorems.Files.Whole
import BittorrentClient.Theorems.Program.Runs

/-! The end of the program. Whatever the peers do, once all pieces are downloaded every piece was delivered once with a
    buffer of its size, and what is on disk is what was delivered. -/

namespace BittorrentClient
open Blocks FlatMemory Interleaving Outcome PiecesToDownload Words

/-! ### What was delivered -/

section
variable {p p' : PiecesToDownload} {s s' : Session} {event : Event}

/-- A buffer that is allocated has the size of its piece. -/
def BufferSized (p : PiecesToDownload) (state : PieceState) : Prop :=
  state.data = [] ∨ ∃ n, p.getPieceSize state.piece_index = .ok n ∧ state.data.length = n.toNat

theorem Took.bufferSized (h : Took p s event p' s') (hbuffered : Buffered p)
    (hdelivered : ∀ state ∈ p.new_pieces, BufferSized p state) : ∀ state ∈ p'.new_pieces, BufferSized p' state := by
  have hcongr : ∀ state, BufferSized p state → BufferSized p' state := by
    rintro state (hempty | ⟨n, hn, hlength⟩)
    · exact .inl hempty
    · exact .inr ⟨n, (getPieceSize_congr h.geometry _).trans hn, hlength⟩
  rcases h.new_pieces with hsame | ⟨piece, n, b, state, -, hstate, -, hnew⟩
  · rw [hsame]
    exact fun state hstate => hcongr state (hdelivered state hstate)
  · rw [hnew]
    exact List.forall_mem_append.mpr ⟨fun state hstate => hcongr state (hdelivered state hstate),
      List.forall_mem_singleton.mpr (hcongr state (hbuffered piece state hstate))⟩

theorem swarm_bufferSized {g : Geometry} {w : World PiecesToDownload Session} (h : Reachable swarm g.pieces w) :
    ∀ state ∈ w.shared.new_pieces, BufferSized w.shared state := by
  refine h.invariant (I := fun w => ∀ state ∈ w.shared.new_pieces, BufferSized w.shared state) (List.forall_mem_nil _) ?_
  intro v v' hreach hv hstep
  cases hstep with
  | join => exact hv
  | act hact =>
    obtain ⟨event, hact⟩ := hact
    exact (step_ok hact).bufferSized (swarm_buffered hreach) hv

end

/-- The piece that was delivered for an index. -/
def PiecesToDownload.deliveredState (p : PiecesToDownload) (i : UInt32) : PieceState :=
  (p.new_pieces.find? fun state => state.piece_index = i).getD { piece_index := i }

section
variable {p : PiecesToDownload}

theorem deliveredState_index (i : UInt32) : (p.deliveredState i).piece_index = i := by
  rw [deliveredState]
  cases hfind : p.new_pieces.find? fun state => state.piece_index = i with
  | none => rfl
  | some state => simpa using List.find?_some hfind

theorem deliveredState_of_mem (hnodup : p.completed.Nodup) {state : PieceState} (hstate : state ∈ p.new_pieces) :
    p.deliveredState state.piece_index = state := by
  have hfound : ∃ other, p.new_pieces.find? (fun other => other.piece_index = state.piece_index) = some other :=
    Option.isSome_iff_exists.mp (List.find?_isSome.mpr ⟨state, hstate, decide_eq_true rfl⟩)
  obtain ⟨other, hother⟩ := hfound
  have hindex : other.piece_index = state.piece_index := by simpa using List.find?_some hother
  rw [deliveredState, hother]
  exact List.inj_on_of_nodup_map hnodup (List.mem_of_find?_eq_some hother) hstate (congrArg UInt32.toNat hindex)

theorem nodup_index (hnodup : p.completed.Nodup) : (p.new_pieces.map PieceState.piece_index).Nodup := by
  have hmap : p.completed = (p.new_pieces.map PieceState.piece_index).map UInt32.toNat := by
    rw [completed, List.map_map]
    rfl
  exact List.Nodup.of_map _ (hmap ▸ hnodup)

/-- The delivered pieces by their indices. -/
theorem map_deliveredState (hnodup : p.completed.Nodup) :
    (p.new_pieces.map PieceState.piece_index).map p.deliveredState = p.new_pieces := by
  rw [List.map_map]
  exact (List.map_congr_left fun state hstate => deliveredState_of_mem hnodup hstate).trans (List.map_id _)

theorem Ledger.completed_nodup {held : List Handle} (h : Ledger p held) : p.completed.Nodup :=
  (h.indices.nodup_iff.mpr List.nodup_range).of_append_right

/-- When all pieces are downloaded, each was delivered once, and none is left. -/
theorem Ledger.complete {held : List Handle} (h : Ledger p held) (hdone : ¬p.downloaded_pieces_count < p.pieces_count) :
    p.downloaded_pieces_count = p.pieces_count ∧ p.completed.Perm (List.range p.pieces_count.toNat) := by
  have hnext := UInt32.le_iff_toNat_le.mp h.next_le
  have hlength := h.indices.length_eq
  rw [List.length_append, List.length_range, ← h.downloaded] at hlength
  rw [UInt32.lt_iff_toNat_lt] at hdone
  have hcount : p.next_piece_index.toNat = p.pieces_count.toNat := by omega
  have hnone : p.indices (held ++ p.to_retry) = [] := List.length_eq_zero_iff.mp (by omega)
  have hindices := h.indices
  rw [hnone, List.nil_append, hcount] at hindices
  exact ⟨UInt32.toNat_inj.mp (by omega), hindices⟩

/-! ### What is on disk -/

theorem writePieces_append (disk : FilesOnDisk) (states states' : List PieceState) :
    disk.writePieces (states ++ states') = disk.writePieces states >>= fun disk => disk.writePieces states' := by
  induction states generalizing disk with
  | nil => rfl
  | cons state states ih =>
    rw [List.cons_append, FilesOnDisk.writePieces, FilesOnDisk.writePieces]
    cases disk.writePiece state with
    | error e => rfl
    | ok r => exact ih r.1

/-- No piece without data passes `write_piece`. -/
theorem data_ne_nil {disk disk' : FilesOnDisk} {states : List PieceState} (h : disk.writePieces states = .ok disk') :
    ∀ state ∈ states, state.data ≠ [] := by
  induction states generalizing disk with
  | nil => exact List.forall_mem_nil _
  | cons state states ih =>
    obtain ⟨⟨disk₁, written⟩, hwrite, h⟩ := bind_ok h
    obtain ⟨_, hdata, -⟩ := bind_ok hwrite
    exact List.forall_mem_cons.mpr ⟨List.ne_nil_of_length_pos (check_ok hdata), ih h⟩

end

section
variable {Url : Type} {endian : Endian} {client : TorrentClient} {urls : UrlParser Url} {system : Win32}
  {start : Downloads} {list : FilesList} {w : World Downloads PeerDownload}

theorem Advanced.delivered_grows {p p' : PiecesToDownload} {x x' : PeerDownload} {event : NetEvent}
    (h : Advanced client p x event p' x') : p.new_pieces <+: p'.new_pieces := by
  cases h with
  | stage => exact List.prefix_refl _
  | download _ _ hstep => exact (step_ok hstep).delivered_grows

/-- What was delivered stays. -/
theorem program_delivered_grows {w w' : World Downloads PeerDownload} (h : Rounds.Run (program endian client urls) w w') :
    w.shared.pieces.new_pieces <+: w'.shared.pieces.new_pieces := by
  induction h with
  | refl => exact List.prefix_refl _
  | tail _ hstep ih =>
    refine ih.trans ?_
    cases hstep with
    | begin _ hbegins =>
      obtain ⟨-, response, -, hround⟩ := hbegins
      obtain ⟨addresses, -, -, -, rfl⟩ := Downloads.beginRound_ok hround
      exact List.prefix_refl _
    | act hact =>
      obtain ⟨event, hact⟩ := hact
      obtain ⟨p, disk, hstep, -, rfl⟩ := Downloads.step_ok hact
      exact (PeerDownload.step_ok hstep).delivered_grows

/-- The files are as the pieces that were delivered leave them, written in this order. -/
theorem program_written (hstart : Downloads.initial client system = .ok start) (hlist : FilesList.make client = .ok list)
    (h : Rounds.Reachable (program endian client urls) start w) :
    (FilesOnDisk.make list system).writePieces w.shared.pieces.new_pieces = .ok w.shared.disk := by
  refine h.invariant
    (I := fun w => (FilesOnDisk.make list system).writePieces w.shared.pieces.new_pieces = .ok w.shared.disk) ?_ ?_
  · obtain ⟨list', hlist', -, hpieces, hdisk⟩ := initial_ok hstart
    cases hlist.symm.trans hlist'
    rw [hpieces, hdisk]
    rfl
  · intro v v' _ hv hstep
    cases hstep with
    | begin _ hbegins =>
      obtain ⟨-, response, -, hround⟩ := hbegins
      obtain ⟨addresses, -, -, -, rfl⟩ := Downloads.beginRound_ok hround
      exact hv
    | act hact =>
      obtain ⟨event, hact⟩ := hact
      obtain ⟨p, disk, hstep, hdisk, rfl⟩ := Downloads.step_ok hact
      have hgrows := List.prefix_iff_eq_append.mp (PeerDownload.step_ok hstep).delivered_grows
      rw [← hgrows, writePieces_append, hv, ok_bind]
      exact hdisk

/-- A delivered piece has as many bytes as it should: it had data when it was written. -/
theorem program_sized (hstart : Downloads.initial client system = .ok start)
    (h : Rounds.Reachable (program endian client urls) start w) : ∀ state ∈ w.shared.pieces.new_pieces,
      ∃ n, w.shared.pieces.getPieceSize state.piece_index = .ok n ∧ state.data.length = n.toNat := by
  intro state hstate
  obtain ⟨list, hlist, -⟩ := initial_ok hstart
  obtain ⟨all, -, hreach⟩ := program_swarm hstart h
  rcases swarm_bufferSized hreach state hstate with hempty | hsized
  · exact absurd hempty (data_ne_nil (program_written hstart hlist h) state hstate)
  · exact hsized

/-! ### The end -/

theorem exit_iff {d : Downloads} : d.exit = .ok () ↔ d.pieces.downloaded_pieces_count = d.pieces.pieces_count ∧
    d.pieces.pieces.isEmpty = true ∧ d.pieces.to_retry = [] ∧ d.disk.totalWritten = d.pieces.total_size := by
  constructor
  · intro h
    obtain ⟨_, hcount, h⟩ := bind_ok h
    obtain ⟨_, hempty, h⟩ := bind_ok h
    obtain ⟨_, hretry, h⟩ := bind_ok h
    exact ⟨MainAssertion.check_ok hcount, MainAssertion.check_ok hempty, MainAssertion.check_ok hretry,
      MainAssertion.check_ok h⟩
  · rintro ⟨hcount, hempty, hretry, hwritten⟩
    simp only [Downloads.exit, MainAssertion.check, if_pos hcount, if_pos hempty, if_pos hretry, if_pos hwritten, ok_bind]

/-- A download that is complete: what `main` asserts at its end holds, every piece was delivered once, with as many
    bytes as it has, and every file that is not empty has its slice of what was delivered. -/
structure Complete (lengths : List UInt64) (d : Downloads) : Prop where
  exit : d.exit = .ok ()
  once : d.pieces.completed.Perm (List.range d.pieces.pieces_count.toNat)
  sized : ∀ state ∈ d.pieces.new_pieces, ∃ n, d.pieces.getPieceSize state.piece_index = .ok n ∧
    state.data.length = n.toNat
  files : ∀ (k : Nat) n, lengths[k]? = some n → n ≠ 0 → ∃ f, d.disk.files[k]? = some f ∧
    f.Whole n (((concatenation d.pieces.deliveredState d.pieces.pieces_count).drop (fileStart lengths k)).take n.toNat)

/-- A download that is finished stays so. -/
theorem finished_stays (hstart : Downloads.initial client system = .ok start)
    (h : Rounds.Reachable (program endian client urls) start w) {w' : World Downloads PeerDownload}
    (hrun : Rounds.Run (program endian client urls) w w') (hdone : ¬w.shared.unfinished) : ¬w'.shared.unfinished := by
  obtain ⟨hledger, hgeometry⟩ := program_kept hstart h
  obtain ⟨hledger', hgeometry'⟩ := program_kept hstart (h.run hrun)
  have hcount : w'.shared.pieces.pieces_count = w.shared.pieces.pieces_count :=
    congrArg Geometry.pieces_count (hgeometry'.trans hgeometry.symm)
  have hlength := (program_delivered_grows hrun).length_le
  have hcompleted := (hledger.complete hdone).2.length_eq
  have hdownloaded := hledger'.downloaded
  rw [completed, List.length_map, List.length_range] at hcompleted
  rw [completed, List.length_map] at hdownloaded
  rw [Downloads.unfinished, UInt32.lt_iff_toNat_lt, hcount]
  omega

/-- When the loop has ended, the delivered pieces are all pieces, and were written. -/
theorem delivered_all (hlist : FilesList.make client = .ok list) (hstart : Downloads.initial client system = .ok start)
    (h : Rounds.Reachable (program endian client urls) start w) (hdone : ¬w.shared.unfinished) :
    (w.shared.pieces.new_pieces.map PieceState.piece_index).Perm
      ((List.range start.pieces.pieces_count.toNat).map UInt32.ofNat) ∧
    (FilesOnDisk.make list system).writePieces
      ((w.shared.pieces.new_pieces.map PieceState.piece_index).map w.shared.pieces.deliveredState) = .ok w.shared.disk ∧
    ∀ i < start.pieces.pieces_count, w.shared.pieces.deliveredState i ∈ w.shared.pieces.new_pieces := by
  obtain ⟨hledger, hgeometry⟩ := program_kept hstart h
  obtain ⟨-, honce⟩ := hledger.complete hdone
  have hnodup := hledger.completed_nodup
  have hpieces : w.shared.pieces.pieces_count = start.pieces.pieces_count := congrArg Geometry.pieces_count hgeometry
  have horder : (w.shared.pieces.new_pieces.map PieceState.piece_index).Perm
      ((List.range start.pieces.pieces_count.toNat).map UInt32.ofNat) := by
    have hindices := honce.map UInt32.ofNat
    rw [completed, List.map_map, hpieces] at hindices
    exact (List.Perm.of_eq (List.map_congr_left fun state _ => UInt32.ofNat_toNat.symm)).trans hindices
  refine ⟨horder, ?_, ?_⟩
  · rw [map_deliveredState hnodup]
    exact program_written hstart hlist h
  · intro i hi
    obtain ⟨state, hstate, rfl⟩ := List.mem_map.mp ((mem_order horder).mpr hi)
    rwa [deliveredState_of_mem hnodup hstate]

theorem complete_of_le (hsum : sumLengths client.fileLengths < 2 ^ 64) (hstart : Downloads.initial client system = .ok start)
    (h : Rounds.Reachable (program endian client urls) start w) (hdone : ¬w.shared.unfinished)
    (hle : start.pieces.total_size.toNat ≤ start.pieces.pieces_count.toNat * start.pieces.piece_size.toNat) :
    Complete client.fileLengths w.shared := by
  obtain ⟨list, hlist, hp, -⟩ := initial_ok hstart
  obtain ⟨hledger, hgeometry⟩ := program_kept hstart h
  have hsized := program_sized hstart h
  obtain ⟨hcount, honce⟩ := hledger.complete hdone
  have haccounted := hledger.accounted.finished hcount
  obtain ⟨horder, hrun, hmem⟩ := delivered_all hlist hstart h hdone
  have hwritten := toNat_totalWritten_all hsum hlist hp deliveredState_index horder hrun
  have hpieces : w.shared.pieces.pieces_count = start.pieces.pieces_count := congrArg Geometry.pieces_count hgeometry
  have htotal : w.shared.pieces.total_size = start.pieces.total_size := congrArg Geometry.total_size hgeometry
  rw [Nat.min_eq_right hle, ← htotal] at hwritten
  have hdata : ∀ i < start.pieces.pieces_count, ∃ n, start.pieces.getPieceSize i = .ok n ∧
      (w.shared.pieces.deliveredState i).data.length = n.toNat := by
    intro i hi
    obtain ⟨n, hn, hlength⟩ := hsized _ (hmem i hi)
    rw [deliveredState_index, getPieceSize_congr hgeometry] at hn
    exact ⟨n, hn, hlength⟩
  refine ⟨exit_iff.mpr ⟨hcount, haccounted.1, haccounted.2, UInt64.toNat_inj.mp hwritten⟩, honce, hsized, ?_⟩
  intro k n hn hne
  rw [hpieces]
  exact whole_of_run hsum hlist hp deliveredState_index hdata horder hrun hle hn hne

end

end BittorrentClient
