import Tomo.Lib.Faithful
import Tomo.Wire.Decoding
import Tomo.Wire.Frame

namespace Tomo
set_option autoImplicit true

open Codec (Faithful Reads)

theorem ReplicaId.faithful : ReplicaId.codec.Faithful := by
  apply Faithful.u64.map
  intro n hn
  exact UInt64.toNat_ofNat_of_lt' hn.lt

theorem ContentHash.faithful : ContentHash.codec.Faithful := Faithful.raw.map fun _ _ => rfl

theorem VectorClock.faithful : VectorClock.codec.Faithful :=
  (ReplicaId.faithful.btreeMap Faithful.u64).map fun _ _ => rfl

theorem ContentSig.faithful : ContentSig.codec.Faithful :=
  (ContentHash.faithful.pair (Faithful.u64.pair (Faithful.bool.pair Faithful.u64))).map
    fun _ _ => rfl

theorem EntryState.faithful : EntryState.codec.Faithful := by
  apply (ContentSig.faithful.either Faithful.unit).map
  intro x _
  cases x <;> rfl

theorem Head.faithful : Head.codec.Faithful :=
  (VectorClock.faithful.pair EntryState.faithful).map fun _ _ => rfl

theorem Entry.faithful : Entry.codec.Faithful := Head.faithful.seq.map fun _ _ => rfl

theorem RelPath.raw_of_new {raw : List Char} {p : RelPath}
    (h : (RelPath.new raw).toOption = some p) : p.raw = raw := by
  cases hnew : RelPath.new raw with
  | error e =>
    rw [hnew] at h
    cases h
  | ok q =>
    rw [hnew] at h
    cases h
    exact new_eq_ok.1 hnew

theorem RelPath.faithful : RelPath.codec.Faithful := Faithful.str.check fun _ _ => raw_of_new

theorem Index.faithful : Index.codec.Faithful :=
  (RelPath.faithful.btreeMap Entry.faithful).map fun _ _ => rfl

theorem ChangeKind.faithful : ChangeKind.codec.Faithful := by
  apply EntryState.faithful.map
  intro s _
  cases s <;> rfl

theorem RemoteChange.faithful : RemoteChange.codec.Faithful :=
  (RelPath.faithful.pair (ChangeKind.faithful.pair VectorClock.faithful)).map fun _ _ => rfl

/-- A change whose numbers and lengths are `u64` values. -/
structure RemoteChange.Fits (c : RemoteChange) : Prop where
  path : c.path.Fits
  state : (stateFromKind c.kind).Fits
  version : c.version.Fits

instance RelPath.decidableFits (p : RelPath) : Decidable p.Fits :=
  inferInstanceAs (Decidable ((Codec.toUtf8 p.raw).length < 2 ^ 64))

instance VectorClock.decidableFits (v : VectorClock) : Decidable v.Fits :=
  decidable_of_iff ((∀ e ∈ v.iter, e.2 < 2 ^ 64) ∧ v.iter.length < 2 ^ 64)
    ⟨fun h => ⟨h.1, h.2⟩, fun h => ⟨h.1, h.2⟩⟩

instance ContentSig.decidableFits (s : ContentSig) : Decidable s.Fits :=
  decidable_of_iff (s.size < 2 ^ 64 ∧ s.mtimeMs < 2 ^ 64)
    ⟨fun h => ⟨h.1, h.2⟩, fun h => ⟨h.1, h.2⟩⟩

instance EntryState.decidableFits : (s : EntryState) → Decidable s.Fits
  | .present sig => inferInstanceAs (Decidable sig.Fits)
  | .tombstone => inferInstanceAs (Decidable True)

instance Entry.decidableFits (e : Entry) : Decidable e.Fits :=
  decidable_of_iff ((∀ h ∈ e.heads, h.version.Fits) ∧ (∀ h ∈ e.heads, h.state.Fits) ∧
      e.heads.length < 2 ^ 64)
    ⟨fun h => ⟨h.1, h.2.1, h.2.2⟩, fun h => ⟨h.1, h.2, h.3⟩⟩

instance Index.decidableFits (i : Index) : Decidable i.Fits :=
  decidable_of_iff ((∀ x ∈ i.iter, x.1.Fits) ∧ (∀ x ∈ i.iter, x.2.Fits) ∧
      i.iter.length < 2 ^ 64)
    ⟨fun h => ⟨h.1, h.2.1, h.2.2⟩, fun h => ⟨h.1, h.2, h.3⟩⟩

instance RemoteChange.decidableFits (c : RemoteChange) : Decidable c.Fits :=
  decidable_of_iff (c.path.Fits ∧ (stateFromKind c.kind).Fits ∧ c.version.Fits)
    ⟨fun h => ⟨h.1, h.2.1, h.2.2⟩, fun h => ⟨h.1, h.2, h.3⟩⟩

theorem RelPath.fits_of_reads {p : RelPath} (h : RelPath.codec.Reads p) : p.Fits := by
  obtain ⟨r, hr, hread⟩ := Option.bind_eq_some_iff.1 (h [])
  obtain ⟨q, hq, heq⟩ := Option.map_eq_some_iff.1 hread
  have hsame : q = p := congrArg Prod.fst heq
  rw [Fits, ← hsame, raw_of_new hq]
  exact (Faithful.str.reads hr).of_str

theorem VectorClock.fits_of_reads {v : VectorClock} (h : VectorClock.codec.Reads v) : v.Fits := by
  obtain ⟨m, hm, rfl⟩ := h.of_map (ReplicaId.faithful.btreeMap Faithful.u64)
  obtain ⟨hall, hlen⟩ := hm.of_btreeMap ReplicaId.faithful Faithful.u64
  exact ⟨fun e he => (hall e he).2.lt, hlen⟩

theorem ContentSig.fits_of_reads {s : ContentSig} (h : ContentSig.codec.Reads s) : s.Fits := by
  have hrest := Faithful.bool.pair Faithful.u64
  have hsize := Faithful.u64.pair hrest
  obtain ⟨x, hx, rfl⟩ := h.of_map (ContentHash.faithful.pair hsize)
  obtain ⟨_, hx⟩ := hx.of_pair ContentHash.faithful hsize
  obtain ⟨hn, hx⟩ := hx.of_pair Faithful.u64 hrest
  exact ⟨hn.lt, (hx.of_pair Faithful.bool Faithful.u64).2.lt⟩

theorem EntryState.fits_of_reads {s : EntryState} (h : EntryState.codec.Reads s) : s.Fits := by
  obtain ⟨x, hx, rfl⟩ := h.of_map (ContentSig.faithful.either Faithful.unit)
  cases x with
  | inl sig => exact ContentSig.fits_of_reads (hx.of_inl ContentSig.faithful)
  | inr _ => trivial

theorem Head.fits_of_reads {g : Head} (h : Head.codec.Reads g) :
    g.version.Fits ∧ g.state.Fits := by
  obtain ⟨x, hx, rfl⟩ := h.of_map (VectorClock.faithful.pair EntryState.faithful)
  obtain ⟨hv, hs⟩ := hx.of_pair VectorClock.faithful EntryState.faithful
  exact ⟨VectorClock.fits_of_reads hv, EntryState.fits_of_reads hs⟩

theorem Entry.fits_of_reads {e : Entry} (h : Entry.codec.Reads e) : e.Fits := by
  obtain ⟨heads, hx, rfl⟩ := h.of_map Head.faithful.seq
  obtain ⟨hall, hlen⟩ := hx.of_seq Head.faithful
  exact ⟨fun g hg => (Head.fits_of_reads (hall g hg)).1,
    fun g hg => (Head.fits_of_reads (hall g hg)).2, hlen⟩

theorem Index.fits_of_reads {i : Index} (h : Index.codec.Reads i) : i.Fits := by
  obtain ⟨m, hm, rfl⟩ := h.of_map (RelPath.faithful.btreeMap Entry.faithful)
  obtain ⟨hall, hlen⟩ := hm.of_btreeMap RelPath.faithful Entry.faithful
  exact ⟨fun x hx => RelPath.fits_of_reads (hall x hx).1,
    fun x hx => Entry.fits_of_reads (hall x hx).2, hlen⟩

theorem RemoteChange.fits_of_reads {c : RemoteChange} (h : RemoteChange.codec.Reads c) :
    c.Fits := by
  have hrest := ChangeKind.faithful.pair VectorClock.faithful
  obtain ⟨x, hx, rfl⟩ := h.of_map (RelPath.faithful.pair hrest)
  obtain ⟨hp, hx⟩ := hx.of_pair RelPath.faithful hrest
  obtain ⟨hk, hv⟩ := hx.of_pair ChangeKind.faithful VectorClock.faithful
  obtain ⟨s, hs, hkind⟩ := hk.of_map EntryState.faithful
  refine ⟨RelPath.fits_of_reads hp, ?_, VectorClock.fits_of_reads hv⟩
  have hback : stateFromKind x.2.1 = s := by
    rw [← hkind]
    cases s <;> rfl
  rw [hback]
  exact EntryState.fits_of_reads hs

theorem RemoteChange.reads {c : RemoteChange} (h : c.Fits) : RemoteChange.codec.Reads c := by
  have hk : ChangeKind.codec.Reads c.kind := by
    apply (EntryState.reads h.state).map rfl
    cases c.kind <;> rfl
  exact ((RelPath.reads h.path).pair (hk.pair (VectorClock.reads h.version))).map rfl rfl

namespace Message

/-- The number of a variant, then what it holds. -/
def toBytes : Message → Bytes
  | .hello protocol binaryVersion replica => Codec.u32.write 0 ++
      (Codec.u16.pair (Codec.str.pair ReplicaId.codec)).write (protocol, binaryVersion, replica)
  | .indexExchange index => Codec.u32.write 1 ++ Index.codec.write index
  | .change c bytes => Codec.u32.write 2 ++
      (RemoteChange.codec.pair (Codec.option Codec.bytes)).write (c, bytes)
  | .changeManifest c totalSize manifest => Codec.u32.write 3 ++
      (RemoteChange.codec.pair (Codec.u64.pair ContentHash.codec.seq)).write
        (c, totalSize, manifest)
  | .chunkRequest hashes => Codec.u32.write 4 ++ ContentHash.codec.seq.write hashes
  | .chunkData hash bytes => Codec.u32.write 5 ++
      (ContentHash.codec.pair Codec.bytes).write (hash, bytes)
  | .ping nonce => Codec.u32.write 6 ++ Codec.u64.write nonce
  | .pong nonce => Codec.u32.write 7 ++ Codec.u64.write nonce
  | .pause => Codec.u32.write 8
  | .resume => Codec.u32.write 9

def codec : Codec Message where
  write := toBytes
  read bs := (Codec.u32.read bs).bind fun r => readVariant r.1 r.2

theorem fromBytes_eq (bs : Bytes) : fromBytes bs = codec.fromBytes bs := by
  simp only [fromBytes, Codec.fromBytes, codec, Option.map_bind]
  rfl

/-- The messages of one variant are the values of a codec, under a number of their own. -/
structure Carries (tag : Nat) (c : Codec β) (f : β → Message) : Prop where
  faithful : c.Faithful
  tag_lt : tag < 2 ^ 32
  read_eq : ∀ bs, readVariant tag bs = (c.read bs).map fun r => (f r.1, r.2)
  write_eq : ∀ x, (f x).toBytes = Codec.u32.write tag ++ c.write x

theorem carries_hello : Carries 0 (Codec.u16.pair (Codec.str.pair ReplicaId.codec))
    fun x => .hello x.1 x.2.1 x.2.2 :=
  ⟨Faithful.u16.pair (Faithful.str.pair ReplicaId.faithful), by decide, fun _ => rfl, fun _ => rfl⟩

theorem carries_index : Carries 1 Index.codec .indexExchange :=
  ⟨Index.faithful, by decide, fun _ => rfl, fun _ => rfl⟩

theorem carries_change : Carries 2 (RemoteChange.codec.pair (Codec.option Codec.bytes))
    fun x => .change x.1 x.2 :=
  ⟨RemoteChange.faithful.pair Faithful.bytes.option, by decide, fun _ => rfl, fun _ => rfl⟩

theorem carries_manifest :
    Carries 3 (RemoteChange.codec.pair (Codec.u64.pair ContentHash.codec.seq))
      fun x => .changeManifest x.1 x.2.1 x.2.2 :=
  ⟨RemoteChange.faithful.pair (Faithful.u64.pair ContentHash.faithful.seq), by decide,
    fun _ => rfl, fun _ => rfl⟩

theorem carries_request : Carries 4 ContentHash.codec.seq .chunkRequest :=
  ⟨ContentHash.faithful.seq, by decide, fun _ => rfl, fun _ => rfl⟩

theorem carries_data : Carries 5 (ContentHash.codec.pair Codec.bytes)
    fun x => .chunkData x.1 x.2 :=
  ⟨ContentHash.faithful.pair Faithful.bytes, by decide, fun _ => rfl, fun _ => rfl⟩

theorem carries_ping : Carries 6 Codec.u64 .ping :=
  ⟨Faithful.u64, by decide, fun _ => rfl, fun _ => rfl⟩

theorem carries_pong : Carries 7 Codec.u64 .pong :=
  ⟨Faithful.u64, by decide, fun _ => rfl, fun _ => rfl⟩

theorem carries_pause : Carries 8 Codec.unit fun _ => .pause :=
  ⟨Faithful.unit, by decide, fun _ => rfl, fun _ => (List.append_nil _).symm⟩

theorem carries_resume : Carries 9 Codec.unit fun _ => .resume :=
  ⟨Faithful.unit, by decide, fun _ => rfl, fun _ => (List.append_nil _).symm⟩

theorem readVariant_cases (h : readVariant tag bs = some (msg, rest)) :
    ∃ (β : Type) (c : Codec β) (f : β → Message) (x : β),
      Carries tag c f ∧ c.read bs = some (x, rest) ∧ f x = msg := by
  unfold readVariant at h
  split at h
  case h_9 =>
    cases h
    exact ⟨_, _, _, (), carries_pause, rfl, rfl⟩
  case h_10 =>
    cases h
    exact ⟨_, _, _, (), carries_resume, rfl, rfl⟩
  case h_11 => cases h
  all_goals
    obtain ⟨r, hr, heq⟩ := Option.map_eq_some_iff.1 h
    cases heq
  · exact ⟨_, _, _, _, carries_hello, hr, rfl⟩
  · exact ⟨_, _, _, _, carries_index, hr, rfl⟩
  · exact ⟨_, _, _, _, carries_change, hr, rfl⟩
  · exact ⟨_, _, _, _, carries_manifest, hr, rfl⟩
  · exact ⟨_, _, _, _, carries_request, hr, rfl⟩
  · exact ⟨_, _, _, _, carries_data, hr, rfl⟩
  · exact ⟨_, _, _, _, carries_ping, hr, rfl⟩
  · exact ⟨_, _, _, _, carries_pong, hr, rfl⟩

theorem read_cases (h : codec.read bs = some (msg, rest)) :
    ∃ tag mid, Codec.u32.read bs = some (tag, mid) ∧ readVariant tag mid = some (msg, rest) := by
  obtain ⟨r, hr, h⟩ := Option.bind_eq_some_iff.1 h
  exact ⟨r.1, r.2, hr, h⟩

theorem Carries.reads {c : Codec β} {f : β → Message} (h : Carries tag c f) (hx : c.Reads x) :
    codec.Reads (f x) := by
  intro rest
  have hw : codec.write (f x) = _ := h.write_eq x
  have hr : codec.read = fun bs => (Codec.u32.read bs).bind fun r => readVariant r.1 r.2 := rfl
  simp only [hw, hr, List.append_assoc, Codec.reads_u32 h.tag_lt (c.write x ++ rest),
    Option.bind_some, h.read_eq, hx rest, Option.map_some]

theorem faithful : codec.Faithful where
  reads h := by
    obtain ⟨tag, mid, _, hv⟩ := read_cases h
    obtain ⟨β, c, f, x, hc, hr, rfl⟩ := readVariant_cases hv
    exact hc.reads (hc.faithful.reads hr)
  length_le h := by
    obtain ⟨tag, mid, htag, hv⟩ := read_cases h
    obtain ⟨β, c, f, x, hc, hr, rfl⟩ := readVariant_cases hv
    have h₁ := Faithful.u32.length_le htag
    have h₂ := hc.faithful.length_le hr
    have hw : codec.write (f x) = _ := hc.write_eq x
    rw [hw, List.length_append]
    omega
  append h more := by
    obtain ⟨tag, mid, htag, hv⟩ := read_cases h
    obtain ⟨β, c, f, x, hc, hr, rfl⟩ := readVariant_cases hv
    simp only [codec, Faithful.u32.append htag more, Option.bind_some, hc.read_eq,
      hc.faithful.append hr more, Option.map_some]

/-- A message that the sender's types can hold: its numbers and lengths have 64 bits, its protocol
number has 16. -/
def Fits : Message → Prop
  | .hello protocol binaryVersion _ =>
    protocol < 2 ^ 16 ∧ (Codec.toUtf8 binaryVersion).length < 2 ^ 64
  | .indexExchange index => index.Fits
  | .change c bytes => c.Fits ∧ (bytes.getD []).length < 2 ^ 64
  | .changeManifest c totalSize manifest =>
    c.Fits ∧ totalSize < 2 ^ 64 ∧ manifest.length < 2 ^ 64
  | .chunkRequest hashes => hashes.length < 2 ^ 64
  | .chunkData _ bytes => bytes.length < 2 ^ 64
  | .ping nonce => nonce < 2 ^ 64
  | .pong nonce => nonce < 2 ^ 64
  | .pause => True
  | .resume => True

instance decidableFits : (msg : Message) → Decidable msg.Fits
  | .hello .. => instDecidableAnd
  | .indexExchange index => inferInstanceAs (Decidable index.Fits)
  | .change .. => instDecidableAnd
  | .changeManifest .. => instDecidableAnd
  | .chunkRequest hashes => inferInstanceAs (Decidable (hashes.length < 2 ^ 64))
  | .chunkData _ bytes => inferInstanceAs (Decidable (bytes.length < 2 ^ 64))
  | .ping nonce => inferInstanceAs (Decidable (nonce < 2 ^ 64))
  | .pong nonce => inferInstanceAs (Decidable (nonce < 2 ^ 64))
  | .pause => .isTrue trivial
  | .resume => .isTrue trivial

theorem fits_of_readVariant (h : readVariant tag bs = some (msg, rest)) : msg.Fits := by
  unfold readVariant at h
  split at h
  case h_9 =>
    cases h
    trivial
  case h_10 =>
    cases h
    trivial
  case h_11 => cases h
  all_goals
    obtain ⟨r, hr, heq⟩ := Option.map_eq_some_iff.1 h
    cases heq
  · obtain ⟨hp, hx⟩ := (carries_hello.faithful.reads hr).of_pair Faithful.u16
      (Faithful.str.pair ReplicaId.faithful)
    exact ⟨Codec.u16_lt (hp []), (hx.of_pair Faithful.str ReplicaId.faithful).1.of_str⟩
  · exact Index.fits_of_reads (Index.faithful.reads hr)
  · obtain ⟨hc, hb⟩ := (carries_change.faithful.reads hr).of_pair RemoteChange.faithful
      Faithful.bytes.option
    refine ⟨RemoteChange.fits_of_reads hc, ?_⟩
    cases hbytes : r.1.2 with
    | none => exact Nat.two_pow_pos 64
    | some bytes =>
      rw [hbytes] at hb
      exact (hb.of_some Faithful.bytes).of_bytes
  · obtain ⟨hc, hx⟩ := (carries_manifest.faithful.reads hr).of_pair RemoteChange.faithful
      (Faithful.u64.pair ContentHash.faithful.seq)
    obtain ⟨hn, hm⟩ := hx.of_pair Faithful.u64 ContentHash.faithful.seq
    exact ⟨RemoteChange.fits_of_reads hc, hn.lt, (hm.of_seq ContentHash.faithful).2⟩
  · exact ((carries_request.faithful.reads hr).of_seq ContentHash.faithful).2
  · exact ((carries_data.faithful.reads hr).of_pair ContentHash.faithful Faithful.bytes).2.of_bytes
  · exact (Faithful.u64.reads hr).lt
  · exact (Faithful.u64.reads hr).lt

theorem reads {msg : Message} (h : msg.Fits) : codec.Reads msg := by
  cases msg with
  | hello protocol binaryVersion replica =>
    have hp := Codec.reads_u16 h.1
    exact carries_hello.reads (x := (protocol, binaryVersion, replica))
      (hp.pair ((Codec.reads_str h.2).pair (ReplicaId.reads replica)))
  | indexExchange index => exact carries_index.reads (Index.reads h)
  | change c bytes =>
    have hb : (Codec.option Codec.bytes).Reads bytes := by
      cases bytes with
      | none => exact Codec.reads_none
      | some bytes => exact Codec.reads_some (Codec.reads_bytes h.2)
    exact carries_change.reads (x := (c, bytes)) ((RemoteChange.reads h.1).pair hb)
  | changeManifest c totalSize manifest =>
    have hm : ContentHash.codec.seq.Reads manifest :=
      Reads.seq (fun x _ => ContentHash.reads x) h.2.2
    exact carries_manifest.reads (x := (c, totalSize, manifest))
      ((RemoteChange.reads h.1).pair ((Codec.reads_u64 h.2.1).pair hm))
  | chunkRequest hashes => exact carries_request.reads (Reads.seq (fun x _ => ContentHash.reads x) h)
  | chunkData hash bytes =>
    exact carries_data.reads (x := (hash, bytes)) ((ContentHash.reads hash).pair (Codec.reads_bytes h))
  | ping nonce => exact carries_ping.reads (Codec.reads_u64 h)
  | pong nonce => exact carries_pong.reads (Codec.reads_u64 h)
  | pause => exact carries_pause.reads (Codec.reads_unit ())
  | resume => exact carries_resume.reads (Codec.reads_unit ())

/-- The messages that come back from their bytes are those that the sender's types can hold. -/
theorem reads_iff (msg : Message) : codec.Reads msg ↔ msg.Fits := by
  constructor
  · intro h
    obtain ⟨tag, mid, _, hv⟩ := read_cases (h [])
    exact fits_of_readVariant hv
  · exact reads

theorem fromBytes_iff : fromBytes bs = some msg ↔ ∃ rest, codec.read bs = some (msg, rest) := by
  rw [fromBytes_eq, Codec.fromBytes, Option.map_eq_some_iff]
  constructor
  · rintro ⟨⟨msg', rest⟩, h, heq⟩
    cases heq
    exact ⟨rest, h⟩
  · rintro ⟨rest, h⟩
    exact ⟨(msg, rest), h, rfl⟩

/-- A message is read back from its bytes whatever follows them, no proper part of them is read, and
they begin the bytes of no other message. -/
theorem written_read (msg : Message) (h : msg.Fits) :
    (∀ more, fromBytes (msg.toBytes ++ more) = some msg) ∧
      (∀ part, part <+: msg.toBytes → part ≠ msg.toBytes → fromBytes part = none) ∧
      ∀ other : Message, other.Fits → msg.toBytes <+: other.toBytes → msg = other := by
  have hr := reads h
  refine ⟨fun more => fromBytes_iff.2 ⟨more, hr more⟩, fun part hp hne => ?_, fun other ho hp => ?_⟩
  · rw [fromBytes_eq, Codec.fromBytes, faithful.read_part hr hp hne]
    rfl
  · exact hr.eq_of_begins (reads ho) hp

/-- A ping, its number on two bytes. -/
theorem ping_read :
    (∀ more, fromBytes ([6, 0x96, 0x01] ++ more) = some (.ping 150)) ∧
      (∀ part, part <+: [6, 0x96, 0x01] → part ≠ [6, 0x96, 0x01] → fromBytes part = none) ∧
      ∀ other : Message, other.Fits → [6, 0x96, 0x01] <+: other.toBytes → .ping 150 = other := by
  have hb : (Message.ping 150).toBytes = [6, 0x96, 0x01] := by decide +kernel
  have h := written_read (.ping 150) (by decide)
  rw [hb] at h
  exact h

/-- Whatever bytes are accepted as a message, it is one that can be written, in no more bytes, and
read again. -/
theorem read_written (bs : Bytes) (msg : Message) (h : fromBytes bs = some msg) :
    msg.Fits ∧ (∀ more, fromBytes (bs ++ more) = some msg) ∧
      fromBytes msg.toBytes = some msg ∧ msg.toBytes.length ≤ bs.length := by
  obtain ⟨rest, hread⟩ := fromBytes_iff.1 h
  have hfits := (reads_iff msg).1 (faithful.reads hread)
  have hback := (written_read msg hfits).1 []
  rw [List.append_nil] at hback
  refine ⟨hfits, fun more => fromBytes_iff.2 ⟨_, faithful.append hread more⟩, hback, ?_⟩
  exact (Nat.le_add_right _ _).trans (faithful.length_le hread)

/-- The number of a ping on three bytes, of which two are needed. -/
theorem ping_again :
    (Message.ping 150).Fits ∧
      (∀ more, fromBytes ([6, 0x96, 0x81, 0x00] ++ more) = some (.ping 150)) ∧
      fromBytes (Message.ping 150).toBytes = some (.ping 150) ∧
      (Message.ping 150).toBytes.length ≤ [6, 0x96, 0x81, 0x00].length :=
  read_written [6, 0x96, 0x81, 0x00] (.ping 150) (by decide)

/-- The serializer of messages, as its format has it. -/
@[reducible] def postcard : Postcard Unit where
  toAllocvec msg := if msg.Fits then .ok msg.toBytes else .error ()
  fromBytes bs := match fromBytes bs with
    | some msg => .ok msg
    | none => .error ()

theorem postcard_fromBytes {bs : Bytes} :
    postcard.fromBytes bs = .ok msg ↔ fromBytes bs = some msg := by
  change (match fromBytes bs with | some msg => .ok msg | none => .error () : Except Unit Message) =
    .ok msg ↔ _
  cases fromBytes bs with
  | none =>
    constructor
    · intro h
      cases h
    · intro h
      cases h
  | some msg' =>
    constructor
    · intro h
      cases h
      rfl
    · intro h
      cases h
      rfl

theorem postcard_toAllocvec (h : msg.Fits) : postcard.toAllocvec msg = .ok msg.toBytes := if_pos h

theorem postcard_lawful : @LawfulPostcard Unit postcard := by
  letI := postcard
  constructor
  intro msg bytes h
  by_cases hf : msg.Fits
  · rw [postcard_toAllocvec hf] at h
    cases h
    have hback := (written_read msg hf).1 []
    rw [List.append_nil] at hback
    exact postcard_fromBytes.2 hback
  · have he : postcard.toAllocvec msg = .error () := if_neg hf
    rw [he] at h
    cases h

theorem encode_peeled {avail : Bytes} (h : @peelFrame Unit postcard avail = .ok (some (msg, n))) :
    n ≤ avail.length ∧ ∃ f, @encode Unit postcard msg = .ok f ∧ f.length ≤ n := by
  letI := postcard
  refine ⟨peelFrame_bound h, ?_⟩
  rw [peelFrame] at h
  split at h
  · cases h
  next len hd =>
    split at h
    · cases h
    next hmax =>
      split at h
      · cases h
      next hlen =>
        split at h
        · cases h
        next msg' hp =>
          cases h
          obtain ⟨hfits, _, _, hle⟩ := read_written _ msg (postcard_fromBytes.1 hp)
          have hpayload : ((avail.take (lenPrefix + len)).drop lenPrefix).length = len := by
            rw [List.length_drop, List.length_take_of_le (Nat.not_lt.1 hlen)]
            omega
          rw [hpayload] at hle
          have hsmall : len ≤ maxFrameLen := Nat.not_lt.1 hmax
          have hbound : maxFrameLen < 4294967296 := by decide
          refine ⟨leBytes msg.toBytes.length ++ msg.toBytes, ?_, ?_⟩
          · rw [encode, postcard_toAllocvec hfits]
            dsimp only
            rw [if_neg (by omega), if_neg (by omega)]
          · rw [List.length_append]
            exact Nat.add_le_add_left hle 4

/-- Whatever bytes a decoder is fed and in whatever pieces, the messages it returns can be encoded
again, their frames are no longer than what it has consumed, and these frames, cut up in any
way, bring every decoder the same messages. -/
theorem relayed (feeds : List (Feed UInt8)) :
    letI := postcard
    ∃ frames, List.Forall₂ (fun msg f => encode (ε := Unit) msg = .ok f)
        (yielded (FrameDecoder.new.run (ε := Unit) feeds).1) frames ∧
      frames.flatten.length + (FrameDecoder.new.run (ε := Unit) feeds).2.unread.length ≤
        (pushed feeds).length ∧
      ∀ feeds', pushed feeds' = frames.flatten → FrameDecoder.Delivers Unit
        (yielded (FrameDecoder.new.run (ε := Unit) feeds).1) frames feeds' := by
  letI := postcard
  letI := postcard_lawful
  have hpair := FrameDecoder.run_unread (ε := Unit) .new feeds
  have hfst := congrArg Prod.fst hpair
  have hsnd := congrArg Prod.snd hpair
  dsimp only at hfst hsnd
  obtain ⟨frames, henc, hle⟩ := (frameReader Unit).run_reframed (P := fun msg f =>
    encode (ε := Unit) msg = .ok f) (fun _ _ _ h => encode_peeled h) FrameDecoder.new.unread feeds
  rw [← hfst] at henc
  rw [← hsnd] at hle
  refine ⟨frames, henc, ?_, fun feeds' hp => FrameDecoder.delivers henc hp⟩
  exact hle.trans (Nat.zero_add _).le

end Message

end Tomo
