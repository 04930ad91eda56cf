import VolumeFS.Proofs.Client.Calm
import VolumeFS.Proofs.Client.Lossless
import VolumeFS.Proofs.Client.Opening
import VolumeFS.Proofs.Volume.Growth

/-!
# Sessions of writing

In a session a file is created anew or opened at its end, written in chunks and
closed. However large the chunks and the buffers are, at every moment the file is
what it was when it was opened, followed by the first of the bytes that were
written since, and a session that is over has left all of them there. Reading
the file in pieces of any sizes gives them back. Every byte is counted once.
-/

set_option autoImplicit false

namespace VolumeFS

open Volume Exposed

inductive Opening where
  /-- Creates the file, and replaces one that is there. -/
  | create (bufferSize : Option Nat) (permission : Option Permission)
  /-- Opens the file at its end. -/
  | append
  deriving DecidableEq, Repr

structure Session where
  opening : Opening
  /-- What is written, one chunk after another. -/
  chunks : List (List Byte)
  deriving DecidableEq, Repr

section Program

variable {m : Type → Type} [Monad m] [MonadStateOf Statistics m]

def OutputStream.writeEach {ω : Type} [Writable ω m] :
    List (List Byte) → StreamT (OutputStream ω) m Unit
  | [] => return
  | chunk :: chunks => do
    OutputStream.writeAll chunk
    writeEach chunks

def InputStream.readEach {ρ : Type} [Readable ρ m] :
    List Nat → StreamT (InputStream ρ) m (List (List Byte))
  | [] => return []
  | n :: sizes => do
    let piece ← InputStream.read n
    let pieces ← readEach sizes
    return piece :: pieces

namespace Session

variable [VolumeAccess m] [Clock m] (c : Client m) (p : Path)

def start (session : Session) : ExceptT Fault m (OutputStream (WriteBuffer Writer)) :=
  match session.opening with
  | .create bufferSize permission => c.create p ⟨true, bufferSize, permission⟩
  | .append => c.append p

def run (session : Session) : ExceptT Fault m Unit := do
  let stream ← session.start c p
  let (_, stream) ← Stream.orFault (OutputStream.writeEach session.chunks) stream
  let _ ← Stream.orFault OutputStream.close stream

def runs : List Session → ExceptT Fault m Unit
  | [] => return
  | session :: rest => do
    session.run c p
    runs rest

end Session

end Program

namespace Session

def base (session : Session) (old : List Byte) : List Byte :=
  match session.opening with
  | .create _ _ => []
  | .append => old

def onto (session : Session) (old : List Byte) : List Byte :=
  session.base old ++ session.chunks.flatten

def ontoAll (sessions : List Session) (old : List Byte) : List Byte :=
  sessions.foldl (fun data session => session.onto data) old

def total : List Session → Nat
  | [] => 0
  | session :: rest => session.chunks.flatten.length + total rest

def Fits : List Session → List Byte → Prop
  | [], _ => True
  | session :: rest, old => (session.onto old).length ≤ longest ∧ Fits rest (session.onto old)

def bytesAt (k : Key) (s : Exposed) : List Byte := (s.world.volume.contents? k).getD []

end Session

section Whole

variable {W : Type} [MonadStateOf Statistics (StateM W)]

theorem OutputStream.writeEach_outcome {ω : Type} [Writable ω (StateM W)] {room : Nat}
    {Has : Counted ω → W → List Byte → Prop} {Wrote : W → List Byte → Prop}
    (h : Stream.Accepts room Has Wrote) (chunks : List (List Byte)) {s : OutputStream ω} {w : W}
    {data : List Byte} (hs : Has s.writer w data)
    (hlen : data.length + chunks.flatten.length ≤ room) :
    ∃ s' w', acted (writeEach chunks) s w = ((.ok (), s'), w') ∧
      Has s'.writer w' (data ++ chunks.flatten) := by
  induction chunks generalizing s w data with
  | nil => exact ⟨s, w, rfl, by simpa using hs⟩
  | cons chunk chunks ih =>
    rw [List.flatten_cons, List.length_append] at hlen
    obtain ⟨s₁, w₁, hall, hs₁⟩ := writeAll_outcome h hs chunk (by omega)
    obtain ⟨s₂, w₂, heach, hs₂⟩ := ih hs₁ (by
      rw [List.length_append]
      omega)
    refine ⟨s₂, w₂, ?_, by simpa using hs₂⟩
    rw [writeEach, acted_bind_ok hall, heach]

/-- A read that gives nothing comes only after all was handed out. -/
theorem InputStream.readEach_outcome {ρ : Type} [Readable ρ (StateM W)]
    {Left : Counted ρ → W → List Byte → Prop} (h : Stream.Delivers Left) (sizes : List Nat)
    (hpos : ∀ n ∈ sizes, 0 < n) {s : InputStream ρ} {w : W} {bytes : List Byte}
    (hs : Left s.reader w bytes) :
    ∃ pieces rest s' w', acted (readEach sizes) s w = ((.ok pieces, s'), w') ∧
      bytes = pieces.flatten ++ rest ∧ ([] ∈ pieces → rest = []) ∧
      (bytes.length < sizes.length → [] ∈ pieces) ∧ Left s'.reader w' rest := by
  induction sizes generalizing s w bytes with
  | nil => exact ⟨[], bytes, s, w, rfl, rfl, by simp, by simp, hs⟩
  | cons n sizes ih =>
    obtain ⟨piece, rest, s₁, w₁, hread, rfl, hend, hs₁⟩ := read_outcome h (hpos n (by simp)) hs
    obtain ⟨pieces, left, s₂, w₂, heach, rfl, hall, henough, hs₂⟩ :=
      ih (fun m hm => hpos m (by simp [hm])) hs₁
    refine ⟨piece :: pieces, left, s₂, w₂, ?_, by simp, ?_, ?_, hs₂⟩
    · rw [readEach, acted_bind_ok hread, acted_bind_ok heach]
      rfl
    · intro hnone
      rcases List.mem_cons.1 hnone with hpiece | hpieces
      · exact (List.append_eq_nil_iff.1 (hend hpiece.symm)).2
      · exact hall hpieces
    · intro hmany
      cases piece with
      | nil => exact List.mem_cons_self
      | cons b bs =>
        refine List.mem_cons_of_mem _ (henough ?_)
        simp only [List.length_append, List.length_cons] at hmany ⊢
        omega

end Whole

namespace Session

section Stream

variable (opened : Exposed) (k : Key) (mode uid gid : UInt32) (base : List Byte)

def Taking (stream : Counted (WriteBuffer Writer)) (s : Exposed) (data : List Byte) : Prop :=
  Counted.Tallying (fun now => WriteBuffer.Holding (Writer.Extends opened k mode uid gid base now))
    opened.world.statistics stream s data

def Took (s : Exposed) (data : List Byte) : Prop :=
  Counted.Tallied (fun now => Grown opened k mode uid gid base now) opened.world.statistics s data

variable {opened k mode uid gid base}

theorem taking_accepts (k : Key) (mode uid gid : UInt32) (hcalm : opened.Calm)
    (hbase : base.length ≤ longest) :
    Stream.Accepts (longest - base.length) (Taking opened k mode uid gid base)
      (Took opened k mode uid gid base) := by
  refine Counted.accepts (fun now => WriteBuffer.accepts (Writer.accepts hcalm hbase now)) ?_ _
  rintro now f b s data ⟨passed, rfl, hpassed⟩
  exact ⟨passed, rfl, hpassed.toGrown.tallied f, hpassed.key, hpassed.position⟩

theorem taking_fresh (hbase : base.length ≤ longest)
    (hfile : opened.world.volume.find? k = some ⟨.file base, mode, uid, gid⟩) (capacity : Nat) :
    Taking opened k mode uid gid base
      (.start (.ofCapacity capacity ⟨k, UInt64.ofNat base.length⟩)) opened [] := by
  have hgrowing : Growing k base [] opened.world.volume :=
    ⟨[], List.prefix_refl _, by rw [contents_eq_some.2 ⟨_, hfile, rfl⟩, List.append_nil]⟩
  have hwrote : Writer.Wrote opened.world k mode uid gid opened.world (base ++ []) := by
    rw [List.append_nil]
    exact ⟨(put_found hfile).symm, rfl⟩
  refine Counted.tallying_fresh (WriteBuffer.holding_fresh ?_ capacity)
  refine ⟨⟨hwrote, rfl, .refl hgrowing⟩, rfl, ?_⟩
  rw [List.append_nil, toNat_length hbase]

/-- What was taken is partly in the file and partly in the buffer. -/
theorem Taking.kept {stream : Counted (WriteBuffer Writer)} {s : Exposed} {data : List Byte}
    (h : Taking opened k mode uid gid base stream s data) : Kept (Growing k base data) opened s := by
  obtain ⟨-, now, ⟨passed, rfl, hpassed⟩, -⟩ := h
  exact hpassed.kept.mono fun v hv => hv.mono (List.prefix_append _ _)

end Stream

/-- The session's stream stands at the end of a file that has what the session keeps. -/
structure Started (c : Client ExposedRun) (x : List String) (session : Session) (before : Exposed)
    (stream : OutputStream (WriteBuffer Writer)) (opened : Exposed) : Prop where
  calm : opened.Calm
  wellFormed : opened.world.volume.WellFormed
  statistics : opened.world.statistics = before.world.statistics
  stream : ∃ capacity, stream = c.output
    ⟨⟨x⟩, UInt64.ofNat (session.base (bytesAt ⟨x⟩ before)).length⟩ capacity (.ofNames x)
  file : ∃ e, opened.world.volume.find? ⟨x⟩ = some e ∧
    e.content = .file (session.base (bytesAt ⟨x⟩ before))

section Start

variable {c : Client ExposedRun} {p : Path} {x : List String} {before : Exposed}
  (hp : c.resolver.resolve p = .ok (.ofNames x)) (hx : ∀ n ∈ x, IsName n) (hcalm : before.Calm)
  (hw : before.world.volume.WellFormed)

include hp hx hcalm hw

theorem start_outcome (session : Session) :
    (∃ fault s, ended (session.start c p) before = (.error fault, s) ∧
      ∀ e data, before.world.volume.find? ⟨x⟩ = some e → e.content ≠ .file data) ∨
    ∃ stream opened, ended (session.start c p) before = (.ok stream, opened) ∧
      session.Started c x before stream opened := by
  obtain ⟨opening, chunks⟩ := session
  cases opening with
  | create bufferSize permission =>
    obtain ⟨result, s, hend, hs, hplain, hcount⟩ :=
      c.echoes_create p ⟨true, bufferSize, permission⟩ before hcalm
    obtain ⟨fault, hfault, hnone⟩ | ⟨w', e, hok, hw', he, hfile⟩ :=
      Client.create_outcome (c := c.unexposed) hp hx hw ⟨true, bufferSize, permission⟩
    · obtain ⟨rfl, -⟩ := Prod.mk.inj (hplain.symm.trans hfault)
      refine .inl ⟨fault, s, hend, fun e data he hdata => ?_⟩
      rcases hnone e he with hdir | hover
      · cases hdir.symm.trans hdata
      · cases hover
    · obtain ⟨rfl, rfl⟩ := Prod.mk.inj (hplain.symm.trans hok)
      exact .inr ⟨_, s, hend, hs, hw', hcount, ⟨_, rfl⟩, e, he, hfile⟩
  | append =>
    obtain ⟨result, s, hend, hs, hplain, hcount⟩ := c.echoes_append p before hcalm
    have happend := Client.append_outcome (c := c.unexposed) (w := before.world) hp hx
    obtain ⟨rfl, hworld⟩ := Prod.mk.inj (hplain.symm.trans happend)
    cases he : before.world.entries x with
    | none =>
      rw [he] at hend
      refine .inl ⟨_, s, hend, fun e data he' => ?_⟩
      cases he.symm.trans he'
    | some e =>
      rw [he] at hend
      cases hc : e.content with
      | directory =>
        rw [Option.map_some, hc] at hend
        refine .inl ⟨_, s, hend, fun e' data he' hdata => ?_⟩
        cases he.symm.trans he'
        cases hc.symm.trans hdata
      | file data =>
        have hold : bytesAt ⟨x⟩ before = data := by
          rw [bytesAt, contents_eq_some.2 ⟨e, he, hc⟩]
          rfl
        rw [Option.map_some, hc, ← hold] at hend
        refine .inr ⟨_, s, hend, hs, hworld ▸ hw, hcount, ⟨_, rfl⟩, e, hworld ▸ he, ?_⟩
        rw [hc, ← hold]
        rfl

end Start

/-- How the chunks of a session came into its file, which had a base when it was opened. -/
structure Went (k : Key) (base : List Byte) (chunks : List (List Byte))
    (stream : OutputStream (WriteBuffer Writer)) (opened closed : Exposed) : Prop where
  /-- While some of the chunks are written the file grows by the first of their bytes only. -/
  writing : ∀ written, written <+: chunks → ∃ stream' s,
    acted (OutputStream.writeEach written) stream opened = ((.ok (), stream'), s) ∧
      Kept (Growing k base written.flatten) opened s
  closing : ∃ stream' stream'' s,
    acted (OutputStream.writeEach chunks) stream opened = ((.ok (), stream'), s) ∧
      acted OutputStream.close stream' s = ((.ok (), stream''), closed) ∧
      Kept (Growing k base chunks.flatten) opened closed
  whole : closed.world.volume.contents? k = some (base ++ chunks.flatten)

/-- A session that ran as it should: its file had what it keeps when it was opened, and then grew. -/
inductive Ran (c : Client ExposedRun) (p : Path) (k : Key) (session : Session)
    (before closed : Exposed) : Prop
  | intro {stream : OutputStream (WriteBuffer Writer)} {opened : Exposed} :
      ended (session.start c p) before = (.ok stream, opened) →
      opened.world.volume.contents? k = some (session.base (bytesAt k before)) →
      Went k (session.base (bytesAt k before)) session.chunks stream opened closed →
      Ran c p k session before closed

inductive RanAll (c : Client ExposedRun) (p : Path) (k : Key) :
    List Session → Exposed → Exposed → Prop
  | nil (s : Exposed) : RanAll c p k [] s s
  | cons {session : Session} {rest : List Session} {before closed after : Exposed} :
      Ran c p k session before closed → RanAll c p k rest closed after →
      RanAll c p k (session :: rest) before after

/-- From one world to a later one so many bytes were counted as written and as read. -/
structure Recorded (before after : Exposed) (written read : Nat) : Prop where
  written : after.world.statistics.bytesWritten =
    before.world.statistics.bytesWritten + UInt64.ofNat written
  read : after.world.statistics.bytesRead = before.world.statistics.bytesRead + UInt64.ofNat read

section Run

variable {c : Client ExposedRun} {p : Path} {x : List String} {session : Session}
  {before opened closed : Exposed} {stream : OutputStream (WriteBuffer Writer)}

theorem Started.went (h : session.Started c x before stream opened)
    (hfits : (session.onto (bytesAt ⟨x⟩ before)).length ≤ longest) :
    ∃ closed, Went ⟨x⟩ (session.base (bytesAt ⟨x⟩ before)) session.chunks stream opened closed ∧
      closed.Calm ∧ closed.world.volume.WellFormed ∧
      Recorded before closed session.chunks.flatten.length 0 := by
  obtain ⟨capacity, rfl⟩ := h.stream
  obtain ⟨⟨content, mode, uid, gid⟩, hfile, hcontent⟩ := h.file
  obtain rfl : content = .file (session.base (bytesAt ⟨x⟩ before)) := hcontent
  unfold onto at hfits
  generalize session.base (bytesAt ⟨x⟩ before) = base at *
  rw [List.length_append] at hfits
  have hbase : base.length ≤ longest := by omega
  have haccepts := taking_accepts ⟨x⟩ mode uid gid h.calm hbase
  have hwrite : ∀ written, written <+: session.chunks → ∃ stream' s,
      acted (OutputStream.writeEach written)
        (c.output ⟨⟨x⟩, UInt64.ofNat base.length⟩ capacity (.ofNames x)) opened =
        ((.ok (), stream'), s) ∧
      Taking opened ⟨x⟩ mode uid gid base stream'.writer s written.flatten := by
    rintro written ⟨rest, hrest⟩
    rw [← hrest, List.flatten_append, List.length_append] at hfits
    obtain ⟨stream', s, hsome, htaken⟩ := OutputStream.writeEach_outcome haccepts written
      (s := c.output ⟨⟨x⟩, UInt64.ofNat base.length⟩ capacity (.ofNames x))
      (taking_fresh hbase hfile capacity) (by
        rw [List.length_nil]
        omega)
    rw [List.nil_append] at htaken
    exact ⟨stream', s, hsome, htaken⟩
  obtain ⟨stream₁, s₁, heach, htaking⟩ := hwrite session.chunks (List.prefix_refl _)
  obtain ⟨stream₂, closed, hclose, now, hgrown, hread, hwritten⟩ :=
    OutputStream.close_outcome haccepts htaking (by omega)
  refine ⟨closed, ⟨fun written hpre => ?_, ⟨stream₁, stream₂, s₁, heach, hclose, hgrown.kept⟩, ?_⟩,
    hgrown.kept.calm h.calm, ?_, ?_, ?_⟩
  · obtain ⟨stream', s, hsome, htaken⟩ := hwrite written hpre
    exact ⟨stream', s, hsome, htaken.kept⟩
  · rw [hgrown.wrote.1]
    exact contents_eq_some.2 ⟨_, find?_put_self _ _ _, rfl⟩
  · rw [hgrown.wrote.1]
    have hmode : mode ≤ 0o7777 := h.wellFormed.mode _ _ hfile
    refine h.wellFormed.put_same hfile (fun hdir => by cases hdir) hmode ?_
    change (base ++ session.chunks.flatten).length ≤ longest
    rwa [List.length_append]
  · rw [hgrown.statistics, hwritten, h.statistics]
  · rw [hgrown.statistics, hread, h.statistics]
    exact (UInt64.add_zero _).symm

theorem Went.run_outcome {base : List Byte}
    (h : Went ⟨x⟩ base session.chunks stream opened closed)
    (hstart : ended (session.start c p) before = (.ok stream, opened)) :
    ended (session.run c p) before = (.ok (), closed) := by
  obtain ⟨stream₁, stream₂, s₁, heach, hclose, -⟩ := h.closing
  have hwrite : ended (Stream.orFault (OutputStream.writeEach session.chunks) stream) opened =
      (.ok ((), stream₁), s₁) := by
    rw [ended_orFault, heach]
  have hshut : ended (Stream.orFault OutputStream.close stream₁) s₁ =
      (.ok ((), stream₂), closed) := by
    rw [ended_orFault, hclose]
  unfold run
  rw [ended_bind, hstart]
  dsimp only
  rw [ended_bind, hwrite]
  dsimp only
  rw [ended_bind, hshut]
  rfl

theorem Recorded.refl (s : Exposed) : Recorded s s 0 0 :=
  ⟨(UInt64.add_zero _).symm, (UInt64.add_zero _).symm⟩

theorem Recorded.trans {s₁ s₂ s₃ : Exposed} {written₁ written₂ read₁ read₂ : Nat}
    (h₁ : Recorded s₁ s₂ written₁ read₁) (h₂ : Recorded s₂ s₃ written₂ read₂) :
    Recorded s₁ s₃ (written₁ + written₂) (read₁ + read₂) := by
  constructor
  · rw [h₂.written, h₁.written, UInt64.ofNat_add, UInt64.add_assoc]
  · rw [h₂.read, h₁.read, UInt64.ofNat_add, UInt64.add_assoc]

end Run

section Runs

variable {c : Client ExposedRun} {p : Path} {x : List String}
  (hp : c.resolver.resolve p = .ok (.ofNames x)) (hx : ∀ n ∈ x, IsName n)
  {before : Exposed} (hcalm : before.Calm) (hw : before.world.volume.WellFormed)

include hp hx hcalm hw

/-- Once its file is there a session always starts. -/
theorem start_again {data : List Byte} (hdata : before.world.volume.contents? ⟨x⟩ = some data)
    (session : Session) :
    ∃ stream opened, ended (session.start c p) before = (.ok stream, opened) := by
  obtain ⟨fault, s, -, hnone⟩ | ⟨stream, opened, hstart, -⟩ :=
    start_outcome hp hx hcalm hw session
  · obtain ⟨e, he, hc⟩ := contents_eq_some.1 hdata
    exact absurd hc (hnone e data he)
  · exact ⟨stream, opened, hstart⟩

/-- A session that starts runs as it should. -/
theorem run_outcome {session : Session} {stream : OutputStream (WriteBuffer Writer)}
    {opened : Exposed} (hstart : ended (session.start c p) before = (.ok stream, opened))
    (hfits : (session.onto (bytesAt ⟨x⟩ before)).length ≤ longest) :
    ∃ closed, ended (session.run c p) before = (.ok (), closed) ∧
      Ran c p ⟨x⟩ session before closed ∧ closed.Calm ∧ closed.world.volume.WellFormed ∧
      closed.world.volume.contents? ⟨x⟩ = some (session.onto (bytesAt ⟨x⟩ before)) ∧
      Recorded before closed session.chunks.flatten.length 0 := by
  obtain ⟨fault, s, hfault, -⟩ | ⟨stream', opened', hstart', hstarted⟩ :=
    start_outcome hp hx hcalm hw session
  · cases hstart.symm.trans hfault
  · cases hstart.symm.trans hstart'
    obtain ⟨closed, hwent, hclosed, hwell, hcount⟩ := hstarted.went hfits
    exact ⟨closed, hwent.run_outcome hstart,
      .intro hstart (contents_eq_some.2 hstarted.file) hwent, hclosed, hwell, hwent.whole, hcount⟩

theorem runs_outcome (sessions : List Session) {data : List Byte}
    (hdata : before.world.volume.contents? ⟨x⟩ = some data) (hfits : Fits sessions data) :
    ∃ after, ended (runs c p sessions) before = (.ok (), after) ∧
      RanAll c p ⟨x⟩ sessions before after ∧ after.Calm ∧ after.world.volume.WellFormed ∧
      after.world.volume.contents? ⟨x⟩ = some (ontoAll sessions data) ∧
      Recorded before after (total sessions) 0 := by
  induction sessions generalizing before data with
  | nil => exact ⟨before, rfl, .nil before, hcalm, hw, hdata, .refl before⟩
  | cons session rest ih =>
    obtain ⟨hfit, hfits⟩ := hfits
    have hbytes : bytesAt ⟨x⟩ before = data := by
      rw [bytesAt, hdata]
      rfl
    rw [← hbytes] at hfit hfits ⊢
    obtain ⟨stream, opened, hstart⟩ := start_again hp hx hcalm hw hdata session
    obtain ⟨closed, hrun, hran, hclosed, hwell, hdata', hcount⟩ :=
      run_outcome hp hx hcalm hw hstart hfit
    obtain ⟨after, hruns, hall, hafter, hwell', hlast, hcount'⟩ := ih hclosed hwell hdata' hfits
    refine ⟨after, ?_, .cons hran hall, hafter, hwell', hlast, hcount.trans hcount'⟩
    rw [runs, ended_bind, hrun]
    exact hruns

/-- Reading a file gives its bytes, whatever the sizes of the requests. -/
theorem read_outcome {data : List Byte}
    (hdata : before.world.volume.contents? ⟨x⟩ = some data) {sizes : List Nat}
    (hpos : ∀ n ∈ sizes, 0 < n) :
    ∃ stream opened pieces stream' after, ended (c.openFile p) before = (.ok stream, opened) ∧
      acted (InputStream.readEach sizes) stream opened = ((.ok pieces, stream'), after) ∧
      pieces.flatten <+: data ∧ ([] ∈ pieces → pieces.flatten = data) ∧
      (data.length < sizes.length → [] ∈ pieces) ∧
      Recorded before after 0 pieces.flatten.length := by
  obtain ⟨e, he, hc⟩ := contents_eq_some.1 hdata
  have hlen : data.length ≤ longest := by
    have hbound := hw.length _ e he
    rwa [hc] at hbound
  obtain ⟨result, opened, hend, hopened, hplain, hcount⟩ := c.echoes_openFile p before hcalm
  have hopen := Client.openFile_outcome (c := c.unexposed) (w := before.world) hp hx
  obtain ⟨rfl, hworld⟩ := Prod.mk.inj (hplain.symm.trans hopen)
  have hentry : (before.world.entries x).map Entry.content = some (.file data) := by
    rw [World.entries, he, Option.map_some, hc]
  rw [hentry] at hend
  have hshows : Reader.Shows opened.world.volume opened.world.statistics ⟨.ofBytes data⟩ opened data :=
    ⟨⟨Nat.zero_le _, hlen, rfl⟩, hopened, rfl, rfl⟩
  have hdelivers := VolumeFS.Counted.delivers
    (fun now => ReadBuffer.delivers (Reader.delivers opened.world.volume now))
    (by
      rintro now f b s rest ⟨left, hsplit, hleft⟩
      exact ⟨left, hsplit, hleft.tallied f⟩)
    opened.world.statistics data
  obtain ⟨pieces, rest, stream', after, hread, hsplit, hall, henough, now, seen, hseen,
    ⟨left, -, hleft⟩, hbytes, hwritten⟩ := InputStream.readEach_outcome hdelivers sizes hpos
      (s := .start (.ofCapacity c.bufferSize ⟨.ofBytes data⟩) .native (c.qualify (.ofNames x)))
      (VolumeFS.Counted.told_fresh (ReadBuffer.behind_fresh hshows c.bufferSize))
  refine ⟨_, opened, pieces, stream', after, hend, hread, ⟨rest, hsplit.symm⟩, fun hnone => ?_,
    henough, ?_, ?_⟩
  · rw [hsplit, hall hnone, List.append_nil]
  · rw [hleft.statistics, hwritten, hcount]
    exact (UInt64.add_zero _).symm
  · rw [hleft.statistics, hbytes, hcount, List.append_cancel_right (hseen.symm.trans hsplit)]

end Runs

end Session

namespace Client

open Session

/-- Sessions on one path, the first of which starts: all of them run, at every moment of each the
file is what it was when it was opened and then the first of the bytes written since, and after all
of them it reads as what was kept and written put together. Every byte is counted once. -/
theorem sessions_round_trip {c : Client ExposedRun} (hc : c.resolver.Reached) {before : Exposed}
    (hcalm : before.Calm) (hw : before.world.volume.Reachable) {p q : Path} (hp : p.Normal)
    (hq : c.resolver.resolve p = .ok q) {first : Session} {rest : List Session}
    {stream : OutputStream (WriteBuffer Writer)} {opened : Exposed}
    (hstart : ended (first.start c p) before = (.ok stream, opened))
    (hfits : Fits (first :: rest) (bytesAt (key q) before)) :
    ∃ after data, ended (runs c p (first :: rest)) before = (.ok (), after) ∧
      RanAll c p (key q) (first :: rest) before after ∧
      data = ontoAll (first :: rest) (bytesAt (key q) before) ∧
      after.world.volume.contents? (key q) = some data ∧
      ∀ sizes : List Nat, (∀ n ∈ sizes, 0 < n) → ∃ stream opened pieces stream' s,
        ended (c.openFile p) after = (.ok stream, opened) ∧
        acted (InputStream.readEach sizes) stream opened = ((.ok pieces, stream'), s) ∧
        pieces.flatten <+: data ∧ ([] ∈ pieces → pieces.flatten = data) ∧
        (data.length < sizes.length → [] ∈ pieces) ∧
        Recorded before s (total (first :: rest)) pieces.flatten.length := by
  obtain ⟨x, rfl, hx⟩ := Resolver.resolve_names hc.sound hp hq
  rw [Path.ofNames_key hx] at *
  obtain ⟨hfit, hfits⟩ := hfits
  obtain ⟨closed, hrun, hran, hclosed, hwell, hdata, hcount⟩ :=
    run_outcome hq hx hcalm hw.wellFormed hstart hfit
  obtain ⟨after, hruns, hall, hafter, hwell', hdata', hcount'⟩ :=
    runs_outcome hq hx hclosed hwell rest hdata hfits
  refine ⟨after, _, ?_, .cons hran hall, rfl, hdata', fun sizes hpos => ?_⟩
  · rw [runs, ended_bind, hrun]
    exact hruns
  · obtain ⟨stream, opened, pieces, stream', s, hopen, hread, hpre, hwhole, henough, hcount''⟩ :=
      read_outcome hq hx hafter hwell' hdata' hpos
    refine ⟨stream, opened, pieces, stream', s, hopen, hread, hpre, hwhole, henough, ?_⟩
    have hsum := (hcount.trans hcount').trans hcount''
    rw [Nat.add_zero, Nat.zero_add] at hsum
    exact hsum

/-- A file written anew without a buffer and then appended to. -/
theorem shelf_round_trip : ∃ after,
    ended (runs exposedVisitor (.ofNames ["a", "f"])
      [⟨.create (some 0) none, [[5], [6, 7]]⟩, ⟨.append, [[8], [], [9, 10]]⟩])
      (.start shelf fun _ => none) = (.ok (), after) ∧
    after.world.volume.contents? ⟨["a", "f"]⟩ = some [5, 6, 7, 8, 9, 10] := by
  have hnormal : (Path.ofNames ["a", "f"]).Normal := Path.leads_names.2 (by decide)
  obtain ⟨stream, opened, hstart⟩ : ∃ stream opened,
      ended (Session.start exposedVisitor (.ofNames ["a", "f"])
        ⟨.create (some 0) none, [[5], [6, 7]]⟩) (.start shelf fun _ => none) =
        (.ok stream, opened) := ⟨_, _, rfl⟩
  have hfits : Fits [⟨.create (some 0) none, [[5], [6, 7]]⟩, ⟨.append, [[8], [], [9, 10]]⟩]
      (bytesAt (key (.ofNames ["a", "f"])) (.start shelf fun _ => none)) :=
    ⟨by decide, by decide, trivial⟩
  obtain ⟨after, data, hruns, -, rfl, hdata, -⟩ := sessions_round_trip (c := exposedVisitor)
    visitor_reached (fun _ => rfl) shelf_reachable hnormal rfl hstart hfits
  exact ⟨after, hruns, hdata⟩

end Client

end VolumeFS
