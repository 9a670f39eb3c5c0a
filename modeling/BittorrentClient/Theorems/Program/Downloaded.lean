import BittorrentClient.Theorems.Program.Completion

/-! The whole program. Whatever the peers do, what was delivered is what is on disk when the loop of `main` ends; with
    honest peers it is the torrent, no assertion fails on the way, and there is always a way to the end. -/

namespace BittorrentClient
open FlatMemory Interleaving

section
variable {Url : Type} {endian : Endian} {client : TorrentClient} {urls : UrlParser Url} {system : Win32}
  {start : Downloads}

/-! ### Any peers -/

/-- Whatever the peers and the trackers do, in any number of rounds: when the loop of `main` ends the download is
    complete, unless the files have more bytes than the pieces, which `TorrentClient::make` rules out where it is
    compiled with its assertions. -/
theorem complete_iff (hsum : sumLengths client.fileLengths < 2 ^ 64) (hstart : Downloads.initial client system = .ok start)
    (h : Rounds.Reachable (program endian client urls) start w) (hdone : ¬w.shared.unfinished) :
    Complete client.fileLengths w.shared ↔
      start.pieces.total_size.toNat ≤ start.pieces.pieces_count.toNat * start.pieces.piece_size.toNat := by
  refine ⟨?_, complete_of_le hsum hstart h hdone⟩
  intro hcomplete
  obtain ⟨list, hlist, hp, -⟩ := initial_ok hstart
  obtain ⟨horder, hrun, -⟩ := delivered_all hlist hstart h hdone
  have hwritten := toNat_totalWritten_all hsum hlist hp deliveredState_index horder hrun
  have htotal : w.shared.pieces.total_size = start.pieces.total_size :=
    congrArg Geometry.total_size (program_kept hstart h).geometry
  rw [(exit_iff.mp hcomplete.exit).2.2.2, htotal] at hwritten
  omega

end

/-- A torrent of one file of two bytes, in one piece, with a tracker. -/
def oneFile : TorrentClient where
  metainfo := { tracker_url_utf8 := ascii "udp://tracker:80/announce"
                info := { piece_length_bytes := 2
                          pieces_SHA1 := List.replicate 20 0
                          length_or_files := .files [⟨2, ascii "x"⟩] } }

def oneStart : Downloads where
  pieces := Geometry.pieces ⟨1, 2, 2⟩
  disk := FilesOnDisk.make ⟨oneFile, [⟨0, 2, 0⟩]⟩ .emptyDisk
  debug := { total := 2, pieces_count := 1 }

theorem oneStart_initial : Downloads.initial oneFile .emptyDisk = .ok oneStart := by
  have hcount : oneFile.getPiecesCount = 1 := by decide
  rw [Downloads.initial, PiecesToDownload.initial, hcount]
  rfl

theorem oneFile_writable : WritableTorrent .emptyDisk oneFile ⟨1, 2, 2⟩ where
  sum := by decide
  small := by decide
  noEmpty := by
    intro k hk
    cases k <;> cases hk
  files := ⟨exactNames, Win32.emptyDisk_serves _, List.pairwise_singleton _ _⟩

theorem oneFile_usable : oneFile.usableUrls twoUrls ≠ [] := by
  have husable : twoUrls.Usable (trackerAt "80") := by decide
  have hparse : oneFile.trackerUrls.filterMap twoUrls.parse = [trackerAt "80"] := rfl
  rw [TorrentClient.usableUrls, hparse, List.filter_cons, if_pos (decide_eq_true husable)]
  exact List.cons_ne_nil _ _

/-- Some run downloads this file. -/
theorem oneFile_finishes : ∃ w,
    Rounds.Reachable (honestProgram .little oneFile twoUrls twoByteContent) oneStart w ∧ ¬w.shared.unfinished := by
  have hnone : Rounds.Reachable (honestProgram .little oneFile twoUrls twoByteContent) oneStart ⟨oneStart, []⟩ :=
    Relation.ReflTransGen.refl
  obtain ⟨w, hrun, -, hdone⟩ :=
    can_finish oneStart_initial rfl oneFile_writable twoUrls_lawful oneFile_usable hnone
  exact ⟨w, hrun, hdone⟩

theorem complete_oneFile : ∃ w : World Downloads PeerDownload,
    Rounds.Reachable (program .little oneFile twoUrls) oneStart w ∧ Complete [2] w.shared := by
  obtain ⟨w, h, hdone⟩ := oneFile_finishes
  exact ⟨_, honest_program h, (complete_iff (by decide) oneStart_initial (honest_program h) hdone).mpr (by decide)⟩

/-! ### Honest peers -/

section
variable {Url : Type} {endian : Endian} {client : TorrentClient} {urls : UrlParser Url} {system : Win32}
  {start : Downloads} {g : Geometry} {c : TorrentContent g} {w : World Downloads HonestDownload}

/-- However far the download has come, and whatever the connections of the round are doing, it can still be
    completed. -/
theorem can_complete (hstart : Downloads.initial client system = .ok start) (hg : start.pieces.geometry = g)
    (hwritable : WritableTorrent system client g) (hurls : urls.Lawful) (husable : client.usableUrls urls ≠ [])
    (h : Rounds.Reachable (honestProgram endian client urls c) start w) : ∃ w',
      Rounds.Run (honestProgram endian client urls c) w w' ∧ (∀ x ∈ w'.parties, x.download.finished) ∧
        ¬w'.shared.unfinished ∧ Downloaded client c w'.shared := by
  obtain ⟨w', hrun, hfinished, hdone⟩ := can_finish hstart hg hwritable hurls husable h
  exact ⟨w', hrun, hfinished, hdone, honest_downloaded hstart hg hwritable.sum (h.run hrun) hdone⟩

end

/-- From the beginning of a round. -/
theorem can_complete_oneFile : ∃ w w' : World Downloads HonestDownload, w.parties ≠ [] ∧ w.shared.unfinished ∧
    Rounds.Run (honestProgram .little oneFile twoUrls twoByteContent) w w' ∧
    Downloaded oneFile twoByteContent w'.shared := by
  have hnone : Rounds.Reachable (honestProgram .little oneFile twoUrls twoByteContent) oneStart ⟨oneStart, []⟩ :=
    Relation.ReflTransGen.refl
  have hunfinished : oneStart.unfinished := by
    rw [Downloads.unfinished]
    decide
  obtain ⟨d, x, after, hpieces, -, -, hrun⟩ :=
    round_can_begin twoUrls_lawful oneFile_usable hunfinished (List.forall_mem_nil _)
  obtain ⟨w', hrun', -, -, hdownloaded⟩ := can_complete oneStart_initial rfl oneFile_writable twoUrls_lawful
    oneFile_usable (hnone.run hrun)
  refine ⟨_, w', List.cons_ne_nil x after, ?_, hrun', hdownloaded⟩
  rw [Downloads.unfinished, hpieces]
  exact hunfinished

end BittorrentClient
