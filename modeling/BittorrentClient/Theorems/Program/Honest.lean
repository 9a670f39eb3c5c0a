import BittorrentClient.Theorems.Files.Written
import BittorrentClient.Theorems.Program.Exit
import BittorrentClient.Theorems.Swarm.Honest

/-! The program with honest peers. Whatever they do before the download, and however the trackers answer, no assertion
    of a connection fails, and when the loop of `main` ends the files are those of the torrent. -/

namespace BittorrentClient
open Blocks Interleaving Outcome PiecesToDownload Words

/-! ### The peers -/

/-- A connection with the requests that were sent for the piece it holds, and those that are not answered. -/
structure HonestDownload where
  download : PeerDownload
  sent : List MessageRequest := []
  unanswered : List MessageRequest := []

namespace HonestDownload

def conversation (x : HonestDownload) : Option Conversation :=
  x.download.session.map fun s => ⟨s, x.sent, x.unanswered⟩

/-- Before the download anything may happen to a connection, then what an honest peer lets happen. -/
def Permits {g : Geometry} (c : TorrentContent g) (x : HonestDownload) (event : NetEvent) (out : List MessageRequest) : Prop :=
  match x.download.session with
  | none => out = x.unanswered
  | some _ => ∃ e, event.event = some e ∧ Permitted c x.unanswered e out

/-- The connection after a step to `download`, with the requests that were unanswered before it wrote one. -/
def after (x : HonestDownload) (download : PeerDownload) (out : List MessageRequest) : HonestDownload :=
  match download.session with
  | none => ⟨download, x.sent, out⟩
  | some s => ⟨download, s.coroutine.sent x.sent, s.coroutine.unanswered out⟩

/-- A peer is asked for nothing before the download, in which it is choked at first. -/
structure Starts (x : HonestDownload) : Prop where
  choked : x.download.StartsChoked
  asked : x.download.session = none → x.sent = [] ∧ x.unanswered = []

end HonestDownload

/-- The loop of `main` where all peers are honest. -/
def honestProgram {Url : Type} (endian : Endian) (client : TorrentClient) (urls : UrlParser Url) {g : Geometry}
    (c : TorrentContent g) : Rounds.Rules Downloads HonestDownload where
  begins d d' new := ∃ downloads, (program endian client urls).begins d d' downloads ∧
    new = downloads.map fun download => { download := download }
  acts d x d' x' := ∃ event out, x.Permits c event out ∧
    d.step endian client x.download event = some (.ok (d', x'.download)) ∧ x' = x.after x'.download out
  finished x := x.download.finished

section
variable {Url : Type} {endian : Endian} {client : TorrentClient} {urls : UrlParser Url} {system : Win32} {g : Geometry}
  {c : TorrentContent g} {start d d' : Downloads} {w : World Downloads HonestDownload} {x x' : HonestDownload}
  {event : NetEvent} {out : List MessageRequest}

theorem HonestDownload.after_none {download : PeerDownload} (h : download.session = none) :
    x.after download out = ⟨download, x.sent, out⟩ := by rw [after, h]

theorem HonestDownload.after_some {download : PeerDownload} {s : Session} (h : download.session = some s) :
    x.after download out = ⟨download, s.coroutine.sent x.sent, s.coroutine.unanswered out⟩ := by rw [after, h]

theorem HonestDownload.after_download (download : PeerDownload) : (x.after download out).download = download := by
  rw [after]
  split <;> rfl

/-- The program with honest peers is the program. -/
theorem honest_program_run {w w' : World Downloads HonestDownload} (h : Rounds.Run (honestProgram endian client urls c) w w') :
    Rounds.Run (program endian client urls) ⟨w.shared, w.parties.map HonestDownload.download⟩
      ⟨w'.shared, w'.parties.map HonestDownload.download⟩ := by
  refine Rounds.Run.map HonestDownload.download h ?_ ?_ fun _ hfinished => hfinished
  · rintro d d' new ⟨downloads, hbegins, rfl⟩
    rw [List.map_map]
    exact (List.map_id downloads).symm ▸ hbegins
  · rintro d x d' x' ⟨event, out, -, hstep, -⟩
    exact ⟨event, hstep⟩

theorem honest_program (h : Rounds.Reachable (honestProgram endian client urls c) start w) :
    Rounds.Reachable (program endian client urls) start ⟨w.shared, w.parties.map HonestDownload.download⟩ :=
  honest_program_run h

/-- What a step before the download leaves. -/
theorem stage_session {x x' : PeerDownload}
    (h : Stage client x.point x.peer event x'.point x'.peer) (hchoked : x.StartsChoked) : x.session = none ∧
      (x'.session = none ∨ ∃ bitfield, x'.session = some (Session.start bitfield)) := by
  refine ⟨h.session_none, ?_⟩
  obtain ⟨address, peerId, extensions, peer, point, written⟩ := x
  obtain ⟨address', peerId', extensions', peer', point', written'⟩ := x'
  cases h with
  | interestedSent =>
    obtain ⟨bitfield, unchocked⟩ := peer
    obtain rfl : unchocked = false := hchoked rfl
    exact .inr ⟨bitfield, rfl⟩
  | _ => exact .inl rfl

/-- What a step does to a connection: it goes on before the download, begins it, or is one that an honest peer lets
    happen to the download. -/
inductive HonestStep (c : TorrentContent g) (p : PiecesToDownload) (x : HonestDownload) :
    PiecesToDownload → HonestDownload → Prop where
  | before {x' : HonestDownload} (h : x.download.session = none) (h' : x'.download.session = none) (hsent : x'.sent = x.sent)
      (hout : x'.unanswered = x.unanswered) : HonestStep c p x p x'
  | begin {x' : HonestDownload} {bitfield} (h : x.download.session = none)
      (h' : x'.conversation = some { session := Session.start bitfield }) : HonestStep c p x p x'
  | download {p' s s' e out} {x' : HonestDownload} (hs : x.download.session = some s) (hs' : x'.download.session = some s')
      (hpermitted : Permitted c x.unanswered e out) (hstep : s.step p e = some (.ok (p', s')))
      (hsent : x'.sent = s'.coroutine.sent x.sent) (hout : x'.unanswered = s'.coroutine.unanswered out) :
      HonestStep c p x p' x'

theorem honest_step (h : (honestProgram endian client urls c).acts d x d' x') (hx : x.Starts) :
    HonestStep c d.pieces x d'.pieces x' := by
  obtain ⟨event, out, hpermits, hact, hafter⟩ := h
  obtain ⟨p, disk, hstep, -, rfl⟩ := Downloads.step_ok hact
  rw [HonestDownload.Permits] at hpermits
  cases PeerDownload.step_ok hstep with
  | stage hstage =>
    obtain ⟨hnone, hnext⟩ := stage_session hstage hx.choked
    rw [hnone] at hpermits
    obtain rfl : out = x.unanswered := hpermits
    rcases hnext with hnone' | ⟨bitfield, hbegun⟩
    · rw [HonestDownload.after_none hnone'] at hafter
      have hsent : x'.sent = x.sent := by rw [hafter]
      have hout : x'.unanswered = x.unanswered := by rw [hafter]
      exact .before hnone hnone' hsent hout
    · refine @HonestStep.begin _ c _ x _ bitfield hnone ?_
      rw [HonestDownload.after_some hbegun, (hx.asked hnone).1, (hx.asked hnone).2] at hafter
      rw [HonestDownload.conversation, hbegun, hafter]
      rfl
  | @download coroutine _ _ _ _ hpoint hevent hstep hx' =>
    have hs : x.download.session = some ⟨x.download.peer, coroutine⟩ := by rw [PeerDownload.session, hpoint]
    rw [hs] at hpermits
    obtain ⟨e, he, hpermitted⟩ := hpermits
    cases hevent.symm.trans he
    rw [HonestDownload.after_some hx'] at hafter
    exact .download hs hx' hpermitted hstep (congrArg HonestDownload.sent hafter)
      (congrArg HonestDownload.unanswered hafter)

theorem HonestDownload.Starts.step (hx : x.Starts) (h : (honestProgram endian client urls c).acts d x d' x') :
    x'.Starts := by
  have hstep := honest_step h hx
  generalize d.pieces = p at hstep
  generalize d'.pieces = p' at hstep
  refine ⟨?_, ?_⟩
  · obtain ⟨event, out, -, hact, -⟩ := h
    obtain ⟨p, disk, hstep, -⟩ := Downloads.step_ok hact
    exact startsChoked_step (PeerDownload.step_ok hstep) hx.choked
  · intro hnone
    cases hstep with
    | before h _ hsent hout =>
      rw [hsent, hout]
      exact hx.asked h
    | begin _ h' =>
      rw [HonestDownload.conversation, hnone] at h'
      cases h'
    | download _ hs' => cases hnone.symm.trans hs'

theorem honest_refines : Rounds.Refines (honestProgram endian client urls c) (honest c) Downloads.pieces
    HonestDownload.conversation HonestDownload.Starts where
  begins := by
    rintro d d' new ⟨downloads, ⟨-, response, -, hround⟩, rfl⟩
    obtain ⟨addresses, -, -, rfl, rfl⟩ := Downloads.beginRound_ok hround
    refine ⟨rfl, List.forall_mem_map.mpr (List.forall_mem_map.mpr ?_)⟩
    exact fun address _ => ⟨⟨fun _ => rfl, fun _ => ⟨rfl, rfl⟩⟩, rfl⟩
  keeps := fun _ _ _ _ h hx => hx.step h
  acts := by
    intro d x d' x' h hx
    have hstep := honest_step h hx
    generalize d.pieces = p at hstep ⊢
    generalize d'.pieces = p' at hstep ⊢
    cases hstep with
    | before hnone hnone' =>
      refine .inr (.inr ⟨?_, rfl⟩)
      rw [HonestDownload.conversation, HonestDownload.conversation, hnone, hnone']
      rfl
    | begin hnone hbegun =>
      refine .inr (.inl ⟨_, ?_, hbegun, ⟨_, rfl⟩, rfl⟩)
      rw [HonestDownload.conversation, hnone]
      rfl
    | download hs hs' hpermitted hstep hsent hout =>
      refine .inl ⟨⟨_, x.sent, x.unanswered⟩, ⟨_, x'.sent, x'.unanswered⟩, ?_, ?_, _, _, hpermitted, hstep, hsent, hout⟩
      · rw [HonestDownload.conversation, hs]
        rfl
      · rw [HonestDownload.conversation, hs']
        rfl

/-! ### No assertion fails -/

/-- What can be known before the download: the pieces of the torrent end below 4 GiB, no empty file lies before the end,
    and its files can be created. -/
structure WritableTorrent (system : Win32) (client : TorrentClient) (g : Geometry) : Prop where
  sum : sumLengths client.fileLengths < 2 ^ 64
  small : g.pieces_count.toNat * g.piece_size.toNat < 2 ^ 32
  noEmpty : NoEmptyInside client.fileLengths
  files : ∃ same, system.Serves same client.fileNames ∧ NamesApart same client.fileLengths client.fileNames

/-- Pieces that were delivered with their sizes can be written. -/
theorem WritableTorrent.writes {list : FilesList} (hwritable : WritableTorrent system client g)
    (hlist : FilesList.make client = .ok list) (hp : PiecesToDownload.initial client = .ok start.pieces)
    (hg : start.pieces.geometry = g) (hvalid : g.Valid) {p : PiecesToDownload} {held : List Handle} (hledger : Ledger p held)
    (hgeometry : p.geometry = g) (hsized : ∀ state ∈ p.new_pieces, ∃ n, p.getPieceSize state.piece_index = .ok n ∧
      state.data.length = n.toNat) : ∃ disk, (FilesOnDisk.make list system).writePieces p.new_pieces = .ok disk := by
  have hnodup := hledger.completed_nodup
  have hcount : p.pieces_count = start.pieces.pieces_count := congrArg Geometry.pieces_count (hgeometry.trans hg.symm)
  have hlt : ∀ state ∈ p.new_pieces, state.piece_index < p.pieces_count := by
    intro state hstate
    have hmem : state.piece_index.toNat ∈ p.completed := List.mem_map_of_mem hstate
    have hindex := hledger.indices.subset (List.mem_append_right _ hmem)
    have hnext := UInt32.le_iff_toNat_le.mp hledger.next_le
    exact UInt32.lt_iff_toNat_lt.mpr (Nat.lt_of_lt_of_le (List.mem_range.mp hindex) hnext)
  subst hg
  rw [← map_deliveredState hnodup]
  obtain ⟨same, hserves, hapart⟩ := hwritable.files
  refine writePieces_total hwritable.sum hlist hp hvalid hwritable.small hwritable.noEmpty hserves hapart
    deliveredState_index (nodup_index hnodup) ?_ ?_
  · exact List.forall_mem_map.mpr fun state hstate => hcount ▸ hlt state hstate
  · refine List.forall_mem_map.mpr ?_
    intro state hstate
    obtain ⟨n, hn, hlength⟩ := hsized state hstate
    obtain ⟨n', hn', hpiece⟩ := getPieceSize_eq (hgeometry ▸ hvalid) (hlt state hstate)
    cases hn.symm.trans hn'
    rw [deliveredState_of_mem hnodup hstate, hlength, ← hgeometry, hpiece]

/-- A connection that downloads is one of the conversations of honest peers. -/
theorem honest_member (hstart : Downloads.initial client system = .ok start) (hg : start.pieces.geometry = g)
    (h : Rounds.Reachable (honestProgram endian client urls c) start w) (hx : x ∈ w.parties) {q : Conversation}
    (hq : x.conversation = some q) :
    ∃ parties, q ∈ parties ∧ Reachable (honest c) g.pieces ⟨w.shared.pieces, parties⟩ := by
  obtain ⟨-, -, -, hpieces, -⟩ := initial_ok hstart
  rw [hg] at hpieces
  rw [← hpieces]
  exact honest_refines.member h hx hq

/-- The pieces that were delivered can be written. -/
theorem honest_writable {list : FilesList} (hwritable : WritableTorrent system client g) (hlist : FilesList.make client = .ok list)
    (hp : PiecesToDownload.initial client = .ok start.pieces) (hg : start.pieces.geometry = g)
    {v : World PiecesToDownload Conversation} (h : Reachable (honest c) g.pieces v) :
    ∃ disk, (FilesOnDisk.make list system).writePieces v.shared.new_pieces = .ok disk := by
  have hreach := honest_extends.reachable h
  have hgeometry : v.shared.geometry = g := swarm_geometry hreach
  refine hwritable.writes hlist hp hg c.valid (swarm_ledger hreach) hgeometry ?_
  intro state hstate
  obtain ⟨hlt, htrue⟩ := (honest_tracks h).1 state hstate
  have hlt' : state.piece_index < v.shared.pieces_count := by rwa [← hgeometry] at hlt
  obtain ⟨n, hn, hlength⟩ := getPieceSize_eq (hgeometry ▸ c.valid) hlt'
  refine ⟨n, hn, ?_⟩
  rw [htrue, c.length_piece hlt, hlength, hgeometry]

theorem honest_steps_total (hstart : Downloads.initial client system = .ok start) (hg : start.pieces.geometry = g)
    (hwritable : WritableTorrent system client g) (h : Rounds.Reachable (honestProgram endian client urls c) start w)
    (hx : x ∈ w.parties) (hpermits : x.Permits c event out) {r : Except Abort (Downloads × PeerDownload)}
    (hstep : w.shared.step endian client x.download event = some r) : ∃ a, r = .ok a := by
  obtain ⟨list, hlist, hp, -⟩ := initial_ok hstart
  rw [HonestDownload.Permits] at hpermits
  obtain ⟨r', hconnection, rfl⟩ := Option.map_eq_some_iff.mp hstep
  have hconversation : ∀ s, x.download.session = some s → ∃ e parties, event.event = some e ∧
      Permitted c x.unanswered e out ∧ (⟨s, x.sent, x.unanswered⟩ : Conversation) ∈ parties ∧
        Reachable (honest c) g.pieces ⟨w.shared.pieces, parties⟩ := by
    intro s hs
    rw [hs] at hpermits
    obtain ⟨e, he, hpermitted⟩ := hpermits
    obtain ⟨parties, hq, hreach⟩ := honest_member hstart hg h hx (by rw [HonestDownload.conversation, hs]; rfl)
    exact ⟨e, parties, he, hpermitted, hq, hreach⟩
  have htotal : ∃ a, r' = .ok a := by
    refine PeerDownload.step_total hconnection ?_
    intro s e r' hs he hr'
    obtain ⟨e', parties, he', hpermitted, hq, hreach⟩ := hconversation s hs
    cases he.symm.trans he'
    obtain ⟨others, hledger⟩ := ledger_of_mem hreach hq
    have hgeometry := swarm_geometry (honest_extends.reachable hreach)
    exact step_total hledger hgeometry hpermitted ((honest_tracks hreach).2 _ hq) hr'
  obtain ⟨⟨p', x'⟩, rfl⟩ := htotal
  have hadvanced := PeerDownload.step_ok hconnection
  have hbefore := program_written hstart hlist (honest_program h)
  have hgrows := List.prefix_iff_eq_append.mp hadvanced.delivered_grows
  have hafter : ∃ disk, (FilesOnDisk.make list system).writePieces p'.new_pieces = .ok disk := by
    cases hadvanced with
    | stage => exact ⟨_, hbefore⟩
    | @download coroutine e _ s' _ hpoint hevent hsession hx' =>
      obtain ⟨e', parties, he', hpermitted, hq, hreach⟩ :=
        hconversation ⟨x.download.peer, coroutine⟩ (by rw [PeerDownload.session, hpoint])
      cases hevent.symm.trans he'
      have hact : (honest c).acts w.shared.pieces ⟨⟨x.download.peer, coroutine⟩, x.sent, x.unanswered⟩ p'
          ⟨s', s'.coroutine.sent x.sent, s'.coroutine.unanswered out⟩ := ⟨e, out, hpermitted, hsession, rfl, rfl⟩
      obtain ⟨parties', hreach'⟩ := hreach.act_mem hq hact
      exact honest_writable hwritable hlist hp hg hreach'
  obtain ⟨disk, hafter⟩ := hafter
  rw [← hgrows, writePieces_append, hbefore, ok_bind] at hafter
  dsimp only
  rw [hafter]
  exact ⟨_, rfl⟩

/-! ### What is written is true -/

/-- The pieces as they should be. -/
def TorrentContent.states (c : TorrentContent g) (i : UInt32) : PieceState := { piece_index := i, data := c.piece i }

/-- The pieces of a torrent are the torrent. -/
theorem concatenation_eq {states : UInt32 → PieceState} (h : ∀ i < g.pieces_count, (states i).data = c.piece i) :
    concatenation states g.pieces_count = c.bytes := by
  have htotal : c.bytes.length ≤ (g.chunking c.valid).total := Nat.le_of_eq c.length_bytes
  have hslices := (g.chunking c.valid).tiles.flatten_slices c.bytes
  rw [Nat.sub_zero, List.drop_zero, List.take_of_length_le htotal, List.map_map] at hslices
  rw [concatenation, ← hslices]
  refine congrArg List.flatten (List.map_congr_left ?_)
  intro k hk
  have hk := List.mem_range.mp hk
  have hindex : (UInt32.ofNat k).toNat = k := UInt32.toNat_ofNat_of_lt' (Nat.lt_trans hk g.pieces_count.toNat_lt)
  rw [h _ (UInt32.lt_iff_toNat_lt.mpr (by rw [hindex]; exact hk)), TorrentContent.piece, Geometry.piece, hindex]
  rfl

theorem honest_delivered (hstart : Downloads.initial client system = .ok start) (hg : start.pieces.geometry = g)
    (h : Rounds.Reachable (honestProgram endian client urls c) start w) :
    ∀ state ∈ w.shared.pieces.new_pieces, TruePiece c state := by
  obtain ⟨-, -, -, hpieces, -⟩ := initial_ok hstart
  rw [hg] at hpieces
  obtain ⟨past, parties, -, -, hreach⟩ := honest_refines.interleaved h
  rw [hpieces] at hreach
  exact (honest_tracks hreach).1

/-- The download has ended well: what `main` asserts holds, and every file that is not empty is that of the torrent. -/
structure Downloaded (client : TorrentClient) (c : TorrentContent g) (d : Downloads) : Prop where
  exit : d.exit = .ok ()
  files : ∀ (k : Nat) n, client.fileLengths[k]? = some n → n ≠ 0 → ∃ f, d.disk.files[k]? = some f ∧
    f.Whole n ((c.bytes.drop (fileStart client.fileLengths k)).take n.toNat)

theorem honest_downloaded (hstart : Downloads.initial client system = .ok start) (hg : start.pieces.geometry = g)
    (hsum : sumLengths client.fileLengths < 2 ^ 64) (h : Rounds.Reachable (honestProgram endian client urls c) start w)
    (hdone : ¬w.shared.unfinished) : Downloaded client c w.shared := by
  obtain ⟨list, hlist, -⟩ := initial_ok hstart
  obtain ⟨hledger, hgeometry⟩ := program_kept hstart (honest_program h)
  obtain ⟨horder, -, hmem⟩ := delivered_all hlist hstart (honest_program h) hdone
  have htrue := honest_delivered hstart hg h
  have hcount : w.shared.pieces.pieces_count = start.pieces.pieces_count := congrArg Geometry.pieces_count hgeometry
  subst hg
  have hcomplete := complete_of_le hsum hstart (honest_program h) hdone c.valid.total_le
  refine ⟨hcomplete.exit, ?_⟩
  have hconcatenation : concatenation w.shared.pieces.deliveredState start.pieces.pieces_count = c.bytes := by
    refine @concatenation_eq start.pieces.geometry c _ ?_
    intro i hi
    have hdata := (htrue _ (hmem i hi)).2
    rwa [deliveredState_index] at hdata
  have hfiles := hcomplete.files
  rw [hcount, hconcatenation] at hfiles
  exact hfiles

end

end BittorrentClient
