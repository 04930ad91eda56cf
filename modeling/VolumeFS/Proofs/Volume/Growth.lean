import VolumeFS.Proofs.Stream.Calm
import VolumeFS.Proofs.Volume.Streams

/-!
# Files that grow

In an exposed world without failures the history tells how a file came to hold
what was written to it: after each call it had some of the bytes, from the first
on. Reading it changes nothing but the statistics.
-/

set_option autoImplicit false

namespace VolumeFS

open Volume Exposed

namespace Volume

/-- The file has a base and after it the first of the accepted bytes, perhaps all of them. -/
def Growing (k : Key) (base accepted : List Byte) (v : Volume) : Prop :=
  ∃ part, part <+: accepted ∧ v.contents? k = some (base ++ part)

theorem Growing.mono {k : Key} {base accepted more : List Byte} {v : Volume}
    (h : Growing k base accepted v) (hmore : accepted <+: more) : Growing k base more v := by
  obtain ⟨part, hpart, hv⟩ := h
  exact ⟨part, hpart.trans hmore, hv⟩

end Volume

section Write

variable (opened : Exposed) (k : Key) (mode uid gid : UInt32) (base : List Byte)

/-- Since the file was opened it has grown by these bytes, the statistics being what they are now. -/
structure Volume.Grown (now : Statistics) (s : Exposed) (data : List Byte) : Prop where
  wrote : Writer.Wrote opened.world k mode uid gid s.world (base ++ data)
  statistics : s.world.statistics = now
  kept : Kept (Growing k base data) opened s

/-- The writer stands at the end of the file that has grown by these bytes. -/
structure Volume.Writer.Extends (now : Statistics) (writer : Writer) (s : Exposed)
    (data : List Byte) : Prop extends Grown opened k mode uid gid base now s data where
  key : writer.key = k
  position : writer.position.toNat = (base ++ data).length

variable {opened k mode uid gid base}

theorem Volume.Grown.tallied {now : Statistics} {s : Exposed} {data : List Byte}
    (h : Grown opened k mode uid gid base now s data) (f : Statistics → Statistics) :
    Grown opened k mode uid gid base (f now) (Counted.tallied f s) data :=
  ⟨h.wrote, congrArg f h.statistics, h.kept.tallied f⟩

/-- After one more call that left the file longer. -/
theorem Volume.Grown.next {now : Statistics} {s : Exposed} {data : List Byte}
    (h : Grown opened k mode uid gid base now s data) {w : World} {more : List Byte}
    (hw : Writer.Wrote opened.world k mode uid gid w (base ++ (data ++ more)))
    (hcount : w.statistics = s.world.statistics) :
    Grown opened k mode uid gid base now (s.next w) (data ++ more) where
  wrote := hw
  statistics := hcount.trans h.statistics
  kept := by
    refine (h.kept.mono fun v hv => hv.mono (List.prefix_append _ _)).trans (.next ?_)
    refine ⟨data ++ more, List.prefix_refl _, ?_⟩
    rw [hw.1]
    exact contents_eq_some.2 ⟨_, find?_put_self _ _ _, rfl⟩

/-- After one more call that changed nothing. -/
theorem Volume.Grown.still {now : Statistics} {s : Exposed} {data : List Byte}
    (h : Grown opened k mode uid gid base now s data) :
    Grown opened k mode uid gid base now (s.next s.world) data :=
  ⟨h.wrote, h.statistics, h.kept.trans (.next h.kept.now)⟩

theorem Volume.Writer.acted_write_statistics (bytes : List Byte) (writer : Writer) (w : World) :
    (acted (Writable.write bytes) writer w).2.statistics = w.statistics := by
  rw [acted_write]
  cases writeAt writer.key writer.position.toNat bytes w.volume <;> rfl

theorem Volume.Writer.accepts (hcalm : opened.Calm) (hbase : base.length ≤ longest)
    (now : Statistics) :
    Stream.Accepts (longest - base.length) (Extends opened k mode uid gid base now)
      (Grown opened k mode uid gid base now) where
  write := by
    intro writer s data bytes hlen h
    have hfits : (base ++ data).length + bytes.length ≤ longest := by
      rw [List.length_append]
      omega
    obtain ⟨n, writer', w', hwrite, hle, hzero, hkey, hpos, hw'⟩ :=
      (Writer.fills opened.world k mode uid gid).write hfits ⟨h.key, h.position, h.wrote⟩
    have hcount := acted_write_statistics bytes writer s.world
    rw [hwrite] at hcount
    rw [List.append_assoc] at hpos hw'
    refine ⟨n, writer', s.next w', ?_, hle, hzero, ⟨h.toGrown.next hw' hcount, hkey, hpos⟩⟩
    change acted (streamCall (Writable.write bytes)) writer s = _
    rw [(h.kept.calm hcalm).acted_call, hwrite]
  flush := by
    intro writer s data _ h
    refine ⟨writer, s.next s.world, ?_, ⟨h.toGrown.still, h.key, h.position⟩⟩
    change acted (streamCall Writable.flush) writer s = _
    rw [(h.kept.calm hcalm).acted_call]
    rfl
  shutdown := by
    intro writer s data _ h
    refine ⟨writer, s.next s.world, ?_, h.toGrown.still⟩
    change acted (streamCall Writable.shutdown) writer s = _
    rw [(h.kept.calm hcalm).acted_call]
    rfl

end Write

section Read

structure Volume.Reader.Shows (v : Volume) (now : Statistics) (r : Reader) (s : Exposed)
    (bytes : List Byte) : Prop where
  left : Reader.Left r s.world bytes
  calm : s.Calm
  volume : s.world.volume = v
  statistics : s.world.statistics = now

theorem Volume.Reader.Shows.tallied {v : Volume} {now : Statistics} {r : Reader} {s : Exposed}
    {bytes : List Byte} (h : Shows v now r s bytes) (f : Statistics → Statistics) :
    Shows v (f now) r (Counted.tallied f s) bytes :=
  ⟨h.left, h.calm, h.volume, congrArg f h.statistics⟩

theorem Volume.Reader.delivers (v : Volume) (now : Statistics) :
    Stream.Delivers (Shows v now) where
  read := by
    intro r s bytes n hn h
    obtain ⟨piece, rest, r', w', hread, hsplit, hend, -, hleft⟩ := Reader.feeds.read hn h.left
    have hworld : (acted (Readable.read n) r s.world).2 = s.world := rfl
    rw [hread] at hworld
    obtain rfl : w' = s.world := hworld
    refine ⟨piece, rest, r', s.next s.world, ?_, hsplit, hend,
      ⟨hleft, h.calm.next _, h.volume, h.statistics⟩⟩
    change acted (streamCall (Readable.read n)) r s = _
    rw [h.calm.acted_call, hread]

end Read

end VolumeFS
