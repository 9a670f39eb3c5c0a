import BittorrentClient.Client.Make
import BittorrentClient.Theorems.Files.Layout
import BittorrentClient.Theorems.Geometry
import BittorrentClient.Theorems.Parser.Asserts

/-! What `TorrentClient::make` validates. Its checks are assertions, over words that the numbers of the torrent were
    cut to. -/

namespace BittorrentClient
open FlatMemory Fuel Guarded Outcome Words

/-- The number of hashes, the piece length and the total size are those of a torrent, in exact arithmetic. -/
structure ConsistentSizes (count length total : Nat) : Prop where
  count_pos : 1 ≤ count
  length_pos : 1 ≤ length
  lt_total : (count - 1) * length < total
  total_le : total ≤ count * length

namespace TorrentClient
variable (client : TorrentClient)

def hashes : Nat := client.metainfo.info.pieces_SHA1.length / 20

def pieceLength : Nat := client.metainfo.info.piece_length_bytes.toNat

def totalLength : Nat := sumLengths client.fileLengths

/-- The sizes are consistent, and are the ones that the client computes with. -/
structure Validated : Prop where
  sizes : ConsistentSizes client.hashes client.pieceLength client.totalLength
  pieces_count : client.getPiecesCount.toNat = client.hashes
  piece_size : client.getPieceSizeBytes.toNat = client.pieceLength
  total_size : ∃ total, client.getTotalSizeBytes = .ok total ∧ total.toNat = client.totalLength

/-- The sizes fit in the words of the client. -/
structure Fits : Prop where
  hashes : client.hashes < 2 ^ 32
  pieceLength : client.pieceLength < 2 ^ 32
  totalLength : client.totalLength < 2 ^ 64

variable {client}

/-- A client that computes with consistent sizes passes the checks. -/
theorem Validated.validate (h : client.Validated) : client.validate = .ok () := by
  obtain ⟨hsizes, hcount, hsize, total, htotal, hlength⟩ := h
  have hpos : 0 < client.getPiecesCount.toNat := hcount ▸ hsizes.count_pos
  have hproduct : (client.getPieceSizeBytes.toUInt64 * (client.getPiecesCount - 1).toUInt64).toNat =
      (client.hashes - 1) * client.pieceLength := by
    rw [toNat_mul_toUInt64, toNat_pred hpos, hcount, hsize, Nat.mul_comm]
  have hlt : client.getPieceSizeBytes.toUInt64 * (client.getPiecesCount - 1).toUInt64 < total := by
    rw [UInt64.lt_iff_toNat_lt, hproduct, hlength]
    exact hsizes.lt_total
  have hlast : total - client.getPieceSizeBytes.toUInt64 * (client.getPiecesCount - 1).toUInt64 ≤
      client.getPieceSizeBytes.toUInt64 := by
    have hwhole : client.hashes * client.pieceLength = (client.hashes - 1) * client.pieceLength + client.pieceLength := by
      rw [← Nat.succ_mul, Nat.succ_eq_add_one, Nat.sub_add_cancel hsizes.count_pos]
    have hle := hsizes.total_le
    rw [UInt64.le_iff_toNat_le, UInt64.toNat_sub_of_le _ _ (UInt64.le_of_lt hlt), hproduct, hlength,
      UInt32.toNat_toUInt64, hsize]
    omega
  rw [TorrentClient.validate, htotal, ok_bind]
  dsimp only
  rw [check_of _ (show client.getPiecesCount > 0 from UInt32.lt_iff_toNat_lt.mpr hpos), ok_bind,
    check_of _ (show client.getPieceSizeBytes > 0 from UInt32.lt_iff_toNat_lt.mpr (hsize ▸ hsizes.length_pos)), ok_bind,
    check_of _ hlt, ok_bind, check_of _ hlast]

theorem Validated.fits (h : client.Validated) : client.Fits := by
  obtain ⟨-, hcount, hsize, total, -, htotal⟩ := h
  refine ⟨?_, ?_, ?_⟩
  · rw [← hcount]
    exact client.getPiecesCount.toNat_lt
  · rw [← hsize]
    exact client.getPieceSizeBytes.toNat_lt
  · rw [← htotal]
    exact total.toNat_lt

theorem exists_getTotalSizeBytes (h : 0 < client.totalLength) : ∃ total, client.getTotalSizeBytes = .ok total := by
  rw [totalLength, fileLengths] at h
  rw [getTotalSizeBytes]
  split
  · exact ⟨_, rfl⟩
  · exact ⟨_, rfl⟩
  · rename_i heq
    rw [heq] at h
    exact absurd h (Nat.lt_irrefl 0)

theorem Fits.validated (h : client.Fits) (hsizes : ConsistentSizes client.hashes client.pieceLength client.totalLength) :
    client.Validated := by
  obtain ⟨total, htotal⟩ := exists_getTotalSizeBytes (Nat.zero_lt_of_lt hsizes.lt_total)
  refine ⟨hsizes, ?_, ?_, total, htotal, toNat_getTotalSizeBytes h.totalLength htotal⟩
  · exact UInt32.toNat_ofNat_of_lt h.hashes
  · rw [getPieceSizeBytes, UInt64.toNat_toUInt32]
    exact Nat.mod_eq_of_lt h.pieceLength

end TorrentClient

/-- In builds with and without the assertions the call ends with a failure, or with a client that is validated. -/
def MakeValidates (getDigestBytes : List UInt8 → SHA1Bytes) (m : Memory) (max : MaxSize) (peerId : PeerId)
    (content : Option Region) : Prop :=
  ∀ ndebug, ∃ fuel ending, TorrentClient.make getDigestBytes m max ndebug peerId fuel content = some ending ∧
    ((∃ e, ending = .failure e) ∨ ∃ client, ending = .success client ∧ client.Validated)

/-- The file is read and accepted by the parser, with the position of its info inside, and with sizes that are
    consistent and fit in words. -/
def ConsistentTorrent (m : Memory) (max : MaxSize) (buffer : Region) : Prop :=
  ∃ fuel torrent, parseTorrentFileContent m max fuel buffer = some (.ok torrent) ∧
    torrent.info_position.start ≤ torrent.info_position.end_ ∧ torrent.info_position.end_ ≤ buffer.size ∧
    let client : TorrentClient := { metainfo := torrent.metainfo }
    ConsistentSizes client.hashes client.pieceLength client.totalLength ∧ client.Fits

/-- The parser rejects the file with an error. -/
def RejectedTorrent (m : Memory) (max : MaxSize) (buffer : Region) : Prop :=
  ∃ fuel e, parseTorrentFileContent m max fuel buffer = some (.error e) ∧ e ≠ .lengthError

section
variable {getDigestBytes : List UInt8 → SHA1Bytes} {m : Memory} {max : MaxSize} {peerId : PeerId}

/-- What is validated depends on the metainfo alone. -/
theorem validated_iff {metainfo : TorrentMetainfo} {infoHash : SHA1Bytes} :
    TorrentClient.Validated ⟨metainfo, infoHash, peerId⟩ ↔ TorrentClient.Validated { metainfo := metainfo } := by
  constructor
  · intro h
    exact ⟨h.sizes, h.pieces_count, h.piece_size, h.total_size⟩
  · intro h
    exact ⟨h.sizes, h.pieces_count, h.piece_size, h.total_size⟩

theorem parseTorrentFileContent_stable (buffer : Region) :
    Stable fun fuel => parseTorrentFileContent m max fuel buffer := by
  intro fuel x h
  obtain ⟨y, hy, hx⟩ := Option.map_eq_some_iff.mp h
  exact Option.map_eq_some_iff.mpr ⟨y, Parser.parseDictionary_stable buffer fuel y hy, hx⟩

theorem guards_parseTorrentFileContent (fuel : Nat) (buffer : Region) :
    Guards (Asserting.parseTorrentFileContent m max fuel buffer) (parseTorrentFileContent m max fuel buffer) := by
  rw [Asserting.parseTorrentFileContent, parseTorrentFileContent, parseDictionary, Option.map_bind]
  refine ((guardsAt fuel).dictionary (.make buffer)).bind ?_
  intro x _
  rw [Function.comp_apply, Option.map_eq_bind]
  refine (Guards.lift _).bind ?_
  rintro ⟨_ | data, p⟩ - <;> exact .pure _

/-- What is parsed with the assertions is parsed without them. -/
theorem parsed_of_build {ndebug : Bool} {fuel : Nat} {buffer : Region} {x : Except FileError TorrentFileInfo}
    (h : (parseTorrentFileContentIn m max ndebug fuel buffer).run = some (.ok x)) :
    parseTorrentFileContent m max fuel buffer = some x := by
  cases ndebug with
  | true => exact (Guards.lift _).of_ok h
  | false => exact (guards_parseTorrentFileContent fuel buffer).of_ok h

/-- A build with the assertions parses nothing whose lengths take the cursor to before the text. -/
theorem staysInside_of_parsed {fuel : Nat} {buffer : Region} {x : Except FileError TorrentFileInfo}
    (h : (parseTorrentFileContentIn m max false fuel buffer).run = some (.ok x)) : StaysInside m buffer := by
  obtain ⟨parsed, hparsed, -⟩ := run_bind_ok h
  exact parseDictionary_stays hparsed

theorem release_of_parsed {fuel : Nat} {buffer : Region} {x : Except FileError TorrentFileInfo}
    (h : parseTorrentFileContent m max fuel buffer = some x) :
    (parseTorrentFileContentIn m max true fuel buffer).run = some (.ok x) := by
  rw [parseTorrentFileContentIn, if_pos rfl, h]
  rfl

theorem build_of_parsed {ndebug : Bool} {fuel : Nat} {buffer : Region} {x : Except FileError TorrentFileInfo}
    (hstays : StaysInside m buffer) (h : parseTorrentFileContent m max fuel buffer = some x) :
    (parseTorrentFileContentIn m max ndebug fuel buffer).run = some (.ok x) := by
  cases ndebug with
  | true => exact release_of_parsed h
  | false =>
    rcases (guards_parseTorrentFileContent fuel buffer).of_some h with hok | ⟨a, herror⟩
    · exact hok
    · -- Only the parser aborts, and it does not.
      obtain ⟨y, hy, -⟩ := Option.map_eq_some_iff.mp h
      obtain ⟨z, hz, -⟩ := Option.bind_eq_some_iff.mp hy
      have hok := parseDictionary_asserting hstays hz
      rcases run_bind_error herror with herror | ⟨z', -, herror⟩
      · rw [hok] at herror
        cases herror
      · dsimp only at herror
        rcases hlift : Parsed.take ElementRef.asDictionary z' with _ | ⟨_ | data, p⟩ <;>
          · simp only [hlift] at herror
            cases herror

theorem asserting_ok {α : Type} {ndebug : Bool} {asserts : Asserted Unit} {rest : Ending α} (h : asserts = .ok ()) :
    Ending.asserting ndebug asserts rest = rest := by
  cases ndebug
  · rw [h]
    rfl
  · rfl

/-- With the assertions compiled in, a call that does not abort passes them. -/
theorem of_asserting {α : Type} {asserts : Asserted Unit} {rest ending : Ending α}
    (h : Ending.asserting false asserts rest = ending) (hne : ∀ a, ending ≠ .aborted a) :
    asserts = .ok () ∧ rest = ending := by
  rcases asserts with a | _
  · exact absurd h.symm (hne a)
  · exact ⟨rfl, h⟩

/-- An accepted file makes a client, or aborts. -/
theorem fromTorrent_ok {buffer : Region} {torrent : TorrentFileInfo} {ending : Ending TorrentClient}
    (h : TorrentClient.fromTorrent getDigestBytes m false peerId buffer torrent = ending)
    (hne : ∀ a, ending ≠ .aborted a) : ∃ infoHash, ending = .success ⟨torrent.metainfo, infoHash, peerId⟩ ∧
      torrent.info_position.start ≤ torrent.info_position.end_ ∧ torrent.info_position.end_ ≤ buffer.size := by
  obtain ⟨hposition, h⟩ := of_asserting h hne
  obtain ⟨-, h⟩ := of_asserting h hne
  exact ⟨_, h.symm, check_ok hposition⟩

theorem fromTorrent_of_consistent {ndebug : Bool} {buffer : Region} {torrent : TorrentFileInfo}
    (hposition : torrent.info_position.start ≤ torrent.info_position.end_ ∧ torrent.info_position.end_ ≤ buffer.size)
    (hvalidated : TorrentClient.Validated { metainfo := torrent.metainfo }) :
    ∃ client, TorrentClient.fromTorrent getDigestBytes m ndebug peerId buffer torrent = .success client ∧
      client.Validated := by
  rw [TorrentClient.fromTorrent]
  dsimp only
  rw [asserting_ok (check_of _ hposition), asserting_ok (validated_iff.mpr hvalidated).validate]
  exact ⟨_, rfl, validated_iff.mpr hvalidated⟩

/-- A failure, or a client that is validated, is no abort and no exception. -/
theorem settled_ne {ending : Ending TorrentClient}
    (h : (∃ e, ending = .failure e) ∨ ∃ client, ending = .success client ∧ client.Validated) :
    (∀ a, ending ≠ .aborted a) ∧ ending ≠ .threw := by
  rcases h with ⟨e, rfl⟩ | ⟨client, rfl, -⟩ <;>
    · refine ⟨?_, ?_⟩
      · intro a ha
        cases ha
      · intro hthrew
        cases hthrew

/-- `make` validates what it hands out exactly for the files that cannot be read, and for those in which no length takes
    the parser to before the text and that it rejects, or whose sizes are consistent and fit in words: the others abort,
    or are handed out where assertions are compiled out. -/
theorem makeValidates_iff {content : Option Region} : MakeValidates getDigestBytes m max peerId content ↔
    ∀ buffer, content = some buffer →
      StaysInside m buffer ∧ (RejectedTorrent m max buffer ∨ ConsistentTorrent m max buffer) := by
  constructor
  · rintro h buffer rfl
    obtain ⟨fuel, ending, hmake, hending⟩ := h false
    obtain ⟨x, hrun, rfl⟩ := Option.map_eq_some_iff.mp hmake
    obtain ⟨hne, hthrew⟩ := settled_ne hending
    rcases x with a | x
    · exact absurd rfl (hne _)
    have hx := parsed_of_build hrun
    refine ⟨staysInside_of_parsed hrun, ?_⟩
    rcases x with e | torrent
    · refine .inl ⟨fuel, e, hx, ?_⟩
      rintro rfl
      exact hthrew rfl
    · obtain ⟨infoHash, hsuccess, hstart, hend⟩ := fromTorrent_ok rfl hne
      simp only [hsuccess] at hending
      rcases hending with ⟨_, hending⟩ | ⟨client, hending, hvalidated⟩
      · cases hending
      · cases hending
        have hvalidated := validated_iff.mp hvalidated
        exact .inr ⟨fuel, torrent, hx, hstart, hend, hvalidated.sizes, hvalidated.fits⟩
  · intro h ndebug
    cases content with
    | none => exact ⟨0, _, rfl, .inl ⟨_, rfl⟩⟩
    | some buffer =>
      obtain ⟨hstays, h⟩ := h buffer rfl
      rcases h with ⟨fuel, e, hparse, he⟩ | ⟨fuel, torrent, hparse, hstart, hend, hsizes, hfits⟩
      · refine ⟨fuel, .failure (.file e), ?_, .inl ⟨_, rfl⟩⟩
        rw [TorrentClient.make, build_of_parsed hstays hparse, Option.map_some]
        cases e with
        | lengthError => exact absurd rfl he
        | parse _ => rfl
        | code _ => rfl
      · obtain ⟨client, hclient, hvalidated⟩ := @fromTorrent_of_consistent getDigestBytes m peerId ndebug buffer
          torrent ⟨hstart, hend⟩ (hfits.validated hsizes)
        refine ⟨fuel, _, ?_, .inr ⟨client, hclient, hvalidated⟩⟩
        rw [TorrentClient.make, build_of_parsed hstays hparse, Option.map_some]

end

/-- A .torrent file with ten bytes in two pieces of four bytes. -/
def tenBytesInEight : List UInt8 :=
  ascii "d8:announce1:u4:infod6:lengthi10e12:piece lengthi4e6:pieces40:aaaaaaaaaaaaaaaaaaaaaaaaaaaaaaaaaaaaaaaaee"

def tenBytesInEightInfo : TorrentFileInfo where
  metainfo := { tracker_url_utf8 := ascii "u", info.piece_length_bytes := 4, info.length_or_files := .length 10,
                info.pieces_SHA1 := ascii "aaaaaaaaaaaaaaaaaaaaaaaaaaaaaaaaaaaaaaaa" }
  info_position := ⟨20, 103⟩

theorem tenBytesInEight_fits : (4096 : UInt64).toNat + tenBytesInEight.length < 2 ^ 64 := by decide

theorem tenBytesInEight_accepted : parseTorrentFileContent (place 4096 tenBytesInEight) ⟨2 ^ 62, 2 ^ 62⟩ 40
    (.of 4096 tenBytesInEight tenBytesInEight_fits) = some (.ok tenBytesInEightInfo) := by decide +kernel

/-- What is checked depends on the metainfo alone. -/
theorem validate_eq (metainfo : TorrentMetainfo) (infoHash : SHA1Bytes) (peerId : PeerId) :
    TorrentClient.validate ⟨metainfo, infoHash, peerId⟩ = TorrentClient.validate { metainfo := metainfo } := rfl

theorem tenBytesInEight_validate :
    TorrentClient.validate { metainfo := tenBytesInEightInfo.metainfo } = .error .lastPieceSize := by decide +kernel

/-- The sizes do not fit together: the assertions abort, and without them the client is handed out. -/
theorem not_makeValidates_tenBytesInEight : ¬∀ getDigestBytes m max peerId content,
    MakeValidates getDigestBytes m max peerId content := by
  intro h
  obtain ⟨fuel, ending, hmake, hending⟩ := h (fun _ => Vector.replicate _ 0) (place 4096 tenBytesInEight)
    ⟨2 ^ 62, 2 ^ 62⟩ (Vector.replicate _ 0) (some (.of 4096 tenBytesInEight tenBytesInEight_fits)) false
  obtain ⟨x, hrun, rfl⟩ := Option.map_eq_some_iff.mp hmake
  have hne := (settled_ne hending).1
  rcases x with a | x
  · exact absurd rfl (hne _)
  have hparse := (parseTorrentFileContent_stable _).converges tenBytesInEight_accepted
  obtain rfl := hparse.eq_of_some (parseTorrentFileContent_stable _) (parsed_of_build hrun)
  simp only [TorrentClient.fromTorrent, asserting_ok (check_of Assertion.infoPosition (show
    tenBytesInEightInfo.info_position.start ≤ tenBytesInEightInfo.info_position.end_ ∧
      tenBytesInEightInfo.info_position.end_ ≤ (Region.of 4096 tenBytesInEight tenBytesInEight_fits).size by
    decide +kernel)), validate_eq, tenBytesInEight_validate] at hne
  exact hne _ rfl

end BittorrentClient
