import Tomo.Engine.Validity
import Tomo.Session.State
import Tomo.Wire.Layout

namespace Tomo
set_option autoImplicit true

open Codec (Builds)

/-- What each variant of a message holds, by the number of the variant. -/
def Message.readVariant : Nat → Bytes → Option (Message × Bytes)
  | 0, bs => ((Codec.u16.pair (Codec.str.pair ReplicaId.codec)).read bs).map
      fun r => (.hello r.1.1 r.1.2.1 r.1.2.2, r.2)
  | 1, bs => (Index.codec.read bs).map fun r => (.indexExchange r.1, r.2)
  | 2, bs => ((RemoteChange.codec.pair (Codec.option Codec.bytes)).read bs).map
      fun r => (.change r.1.1 r.1.2, r.2)
  | 3, bs => ((RemoteChange.codec.pair (Codec.u64.pair ContentHash.codec.seq)).read bs).map
      fun r => (.changeManifest r.1.1 r.1.2.1 r.1.2.2, r.2)
  | 4, bs => (ContentHash.codec.seq.read bs).map fun r => (.chunkRequest r.1, r.2)
  | 5, bs => ((ContentHash.codec.pair Codec.bytes).read bs).map
      fun r => (.chunkData r.1.1 r.1.2, r.2)
  | 6, bs => (Codec.u64.read bs).map fun r => (.ping r.1, r.2)
  | 7, bs => (Codec.u64.read bs).map fun r => (.pong r.1, r.2)
  | 8, bs => some (.pause, bs)
  | 9, bs => some (.resume, bs)
  | _, _ => none

def Message.fromBytes (bs : Bytes) : Option Message :=
  (Codec.u32.read bs).bind fun r => (readVariant r.1 r.2).map Prod.fst

/-- The event a message carries for the engine, if any. -/
def Message.event : Message → Option Event
  | .indexExchange index => some (.peerIndex index)
  | .change c _ | .changeManifest c _ _ => some (.remote c)
  | .hello .. | .chunkRequest _ | .chunkData .. | .ping _ | .pong _ | .pause | .resume => none

/-- A clock as it stands in the bytes: replicas and counters, one record after the other. -/
abbrev ClockRecord := List (ReplicaId × Nat)

abbrev EntryRecord := List (ClockRecord × EntryState)

abbrev IndexRecord := List (RelPath × EntryRecord)

def clockRecord : Codec ClockRecord := (ReplicaId.codec.pair Codec.u64).seq

def entryRecord : Codec EntryRecord := (clockRecord.pair EntryState.codec).seq

def indexRecord : Codec IndexRecord := (RelPath.codec.pair entryRecord).seq

/-- The bytes of a change up to its clock. -/
def changeRecord : Codec (RelPath × ChangeKind × ClockRecord) :=
  RelPath.codec.pair (ChangeKind.codec.pair clockRecord)

def VectorClock.ofRecord (l : ClockRecord) : VectorClock := ⟨Codec.ofRecords l⟩

def Head.ofRecord (r : ClockRecord × EntryState) : Head := ⟨.ofRecord r.1, r.2⟩

def Entry.ofRecord (l : EntryRecord) : Entry := ⟨l.map Head.ofRecord⟩

def Index.ofRecord (l : IndexRecord) : Index := ⟨Codec.ofRecords (l.map (Prod.map id .ofRecord))⟩

/-- Of the records of one replica the last one counts, and that is not zero. -/
def ClockRecord.Sound (l : ClockRecord) : Prop := ∀ r n, l.reverse.lookup r = some n → 0 < n

/-- The clocks are sound, and rebuilding the entry head by head gives it back. -/
def EntryRecord.Sound (l : EntryRecord) : Prop :=
  (∀ x ∈ l, ClockRecord.Sound x.1) ∧
    Entry.rebuild (l.map Head.ofRecord) = some (Entry.ofRecord l)

/-- Of the records of one path the last one counts, and that is sound. -/
def IndexRecord.Sound (l : IndexRecord) : Prop :=
  ∀ p x, l.reverse.lookup p = some x → EntryRecord.Sound x

/-- The index records that the bytes begin with are sound. -/
def SoundIndex (bs : Bytes) : Prop :=
  ∃ r rest, indexRecord.read bs = some (r, rest) ∧ IndexRecord.Sound r

/-- So are the records that a message begins with: an index, or a change up to its clock. -/
def SoundMessage (bs : Bytes) : Prop :=
  ∃ tag rest, Codec.u32.read bs = some (tag, rest) ∧
    (tag = 1 ∧ SoundIndex rest ∨ (tag = 2 ∨ tag = 3) ∧
      ∃ r rest', changeRecord.read rest = some (r, rest') ∧ ClockRecord.Sound r.2.2)

theorem VectorClock.builds : clockRecord.Builds VectorClock.codec .ofRecord :=
  ((Builds.refl clockRecord).map Codec.ofRecords Std.ExtTreeMap.toList).map mk counters

theorem Head.builds : (clockRecord.pair EntryState.codec).Builds Head.codec .ofRecord :=
  (VectorClock.builds.pair (Builds.refl EntryState.codec)).map
    (fun x : VectorClock × EntryState => (⟨x.1, x.2⟩ : Head)) fun h => (h.version, h.state)

theorem Entry.builds : entryRecord.Builds Entry.codec .ofRecord := Head.builds.seq.map mk heads

theorem Index.builds : indexRecord.Builds Index.codec .ofRecord :=
  ((((Builds.refl RelPath.codec).pair Entry.builds).seq).map Codec.ofRecords
    Std.ExtTreeMap.toList).map mk entries

theorem RemoteChange.builds : changeRecord.Builds RemoteChange.codec
    fun r => ⟨r.1, r.2.1, .ofRecord r.2.2⟩ :=
  ((Builds.refl RelPath.codec).pair ((Builds.refl ChangeKind.codec).pair VectorClock.builds)).map
    (fun x : RelPath × ChangeKind × VectorClock => (⟨x.1, x.2.1, x.2.2⟩ : RemoteChange))
    fun c => (c.path, c.kind, c.version)

theorem VectorClock.positive_ofRecord (l : ClockRecord) :
    (ofRecord l).Positive ↔ ClockRecord.Sound l := by
  unfold Positive ClockRecord.Sound ofRecord
  simp only [Codec.getElem?_ofRecords]

theorem Entry.valid_ofRecord (l : EntryRecord) : (ofRecord l).Valid ↔ EntryRecord.Sound l := by
  have hpos : (∀ h ∈ (ofRecord l).heads, h.version.Positive) ↔ ∀ x ∈ l, ClockRecord.Sound x.1 := by
    simp only [ofRecord, List.forall_mem_map]
    exact forall₂_congr fun x _ => VectorClock.positive_ofRecord x.1
  constructor
  · intro h
    exact ⟨hpos.1 h.positive, (rebuild_eq_iff _).2 h.canonical⟩
  · intro h
    exact ⟨(rebuild_eq_iff _).1 h.2, hpos.2 h.1⟩

theorem Index.get_ofRecord (l : IndexRecord) (p : RelPath) :
    (ofRecord l).get p = (l.reverse.lookup p).map Entry.ofRecord := by
  rw [get, ofRecord, Codec.getElem?_ofRecords, ← List.map_reverse]
  induction l.reverse with
  | nil => rfl
  | cons x l ih =>
    rw [List.map_cons, List.lookup_cons, List.lookup_cons, ih]
    dsimp only [Prod.map, id]
    cases p == x.1 <;> rfl

theorem Index.valid_ofRecord (l : IndexRecord) : (ofRecord l).Valid ↔ IndexRecord.Sound l := by
  constructor
  · intro h p x hx
    rw [← Entry.valid_ofRecord]
    apply h p
    rw [get_ofRecord, hx]
    rfl
  · intro h p e he
    rw [get_ofRecord, Option.map_eq_some_iff] at he
    obtain ⟨x, hx, rfl⟩ := he
    exact (Entry.valid_ofRecord x).2 (h p x hx)

/-- An index read from bytes is valid exactly when its records are sound. -/
theorem Index.valid_iff (h : Index.codec.read bs = some (index, rest)) :
    index.Valid ↔ SoundIndex bs := by
  have hb := Index.builds bs
  rw [h] at hb
  obtain ⟨⟨r, rest'⟩, hr, heq⟩ := Option.map_eq_some_iff.1 hb.symm
  cases heq
  rw [valid_ofRecord]
  constructor
  · intro hs
    exact ⟨r, rest', hr, hs⟩
  · rintro ⟨r', rest'', hr', hs⟩
    cases hr.symm.trans hr'
    exact hs

/-- A change read from bytes has a positive clock exactly when its clock record is sound. -/
theorem RemoteChange.positive_iff (h : RemoteChange.codec.read bs = some (c, rest)) :
    c.version.Positive ↔ ∃ r rest', changeRecord.read bs = some (r, rest') ∧
      ClockRecord.Sound r.2.2 := by
  have hb := RemoteChange.builds bs
  rw [h] at hb
  obtain ⟨⟨r, rest'⟩, hr, heq⟩ := Option.map_eq_some_iff.1 hb.symm
  cases heq
  rw [VectorClock.positive_ofRecord]
  constructor
  · intro hs
    exact ⟨r, rest', hr, hs⟩
  · rintro ⟨r', rest'', hr', hs⟩
    cases hr.symm.trans hr'
    exact hs

theorem Codec.read_fst {c : Codec α} {d : Codec β} (h : (c.pair d).read bs = some (x, rest)) :
    ∃ rest', c.read bs = some (x.1, rest') := by
  obtain ⟨r, hr, h⟩ := Option.bind_eq_some_iff.1 h
  obtain ⟨s, _, heq⟩ := Option.map_eq_some_iff.1 h
  cases heq
  exact ⟨r.2, hr⟩

/-- The variants that carry an event begin with what the event is about. -/
theorem Message.event_cases (h : readVariant tag bs = some (msg, rest))
    (hev : msg.event = some ev) :
    tag = 1 ∧ (∃ index, ev = .peerIndex index ∧ Index.codec.read bs = some (index, rest)) ∨
      (tag = 2 ∨ tag = 3) ∧
        ∃ c rest', ev = .remote c ∧ RemoteChange.codec.read bs = some (c, rest') := by
  unfold readVariant at h
  split at h
  case h_2 =>
    obtain ⟨r, hr, heq⟩ := Option.map_eq_some_iff.1 h
    cases heq
    cases hev
    exact .inl ⟨rfl, _, rfl, hr⟩
  case h_3 =>
    obtain ⟨r, hr, heq⟩ := Option.map_eq_some_iff.1 h
    cases heq
    cases hev
    obtain ⟨rest', hc⟩ := Codec.read_fst hr
    exact .inr ⟨.inl rfl, _, rest', rfl, hc⟩
  case h_4 =>
    obtain ⟨r, hr, heq⟩ := Option.map_eq_some_iff.1 h
    cases heq
    cases hev
    obtain ⟨rest', hc⟩ := Codec.read_fst hr
    exact .inr ⟨.inr rfl, _, rest', rfl, hc⟩
  case h_9 =>
    cases h
    cases hev
  case h_10 =>
    cases h
    cases hev
  case h_11 => cases h
  all_goals
    obtain ⟨r, _, heq⟩ := Option.map_eq_some_iff.1 h
    cases heq
    cases hev

/-- What a message carries is valid exactly when its records are sound. -/
theorem Message.valid_iff (h : fromBytes bs = some msg) (hev : msg.event = some ev) :
    ev.Valid ↔ SoundMessage bs := by
  obtain ⟨⟨tag, rest⟩, htag, h⟩ := Option.bind_eq_some_iff.1 h
  obtain ⟨⟨msg', rest'⟩, hread, heq⟩ := Option.map_eq_some_iff.1 h
  cases heq
  have hsame : SoundMessage bs ↔ (tag = 1 ∧ SoundIndex rest ∨ (tag = 2 ∨ tag = 3) ∧
      ∃ r rest', changeRecord.read rest = some (r, rest') ∧ ClockRecord.Sound r.2.2) := by
    constructor
    · rintro ⟨tag', rest'', htag', hs⟩
      cases htag.symm.trans htag'
      exact hs
    · intro hs
      exact ⟨tag, rest, htag, hs⟩
  rw [hsame]
  rcases event_cases hread hev with ⟨ht, index, rfl, hidx⟩ | ⟨ht, c, _, rfl, hc⟩
  · dsimp only at ht hidx
    subst tag
    simp [Event.Valid, Index.valid_iff hidx]
  · dsimp only at ht hc
    have hne : tag ≠ 1 := by omega
    simp only [Event.Valid, hne, false_and, false_or, ht, true_and,
      RemoteChange.positive_iff hc]

/-- No clock that the engine builds itself compares as equal to this one without being it. -/
def VectorClock.Faithful (v : VectorClock) : Prop :=
  ∀ w : VectorClock, w.Positive → w.compare v = .equal → w = v

theorem VectorClock.Positive.faithful {v : VectorClock} (h : v.Positive) : v.Faithful := by
  intro w hw heq
  have hle := compare_spec w v
  rw [heq] at hle
  exact hw.antisymm h hle.1 hle.2

/-- The engines that start on nothing or on a sound index file and handle local changes and
sound messages. -/
inductive Engine.Reachable : Engine → Prop where
  | fresh (r : ReplicaId) : Reachable (.new r .new)
  | load (r : ReplicaId) (bs : Bytes) (index : Index) (hread : Index.codec.fromBytes bs = some index)
      (hs : SoundIndex bs) : Reachable (.new r index)
  | local (e : Engine) (c : LocalChange) (he : Reachable e) : Reachable (e.handle (.local c)).1
  | receive (e : Engine) (bs : Bytes) (msg : Message) (ev : Event) (he : Reachable e)
      (hread : Message.fromBytes bs = some msg) (hev : msg.event = some ev) (hs : SoundMessage bs) :
      Reachable (e.handle ev).1

theorem Index.valid_fromBytes (h : Index.codec.fromBytes bs = some index) :
    index.Valid ↔ SoundIndex bs := by
  obtain ⟨⟨_, rest⟩, hread, heq⟩ := Option.map_eq_some_iff.1 h
  cases heq
  exact valid_iff hread

theorem Engine.Reachable.valid {e : Engine} (h : e.Reachable) : e.index.Valid := by
  induction h with
  | fresh r =>
    intro p e he
    have hnone : Index.new.get p = some e := he
    rw [Index.get_new] at hnone
    cases hnone
  | load r bs index hread hs => exact (Index.valid_fromBytes hread).2 hs
  | «local» e c _ ih => exact handle_valid ih trivial
  | receive e bs msg ev _ hread hev hs ih => exact handle_valid ih ((Message.valid_iff hread hev).2 hs)

end Tomo
