import FirmwareUpdate.Proofs.Engine.Disregarded
import FirmwareUpdate.Proofs.Flash.Steady

/-!
# The digest gate

Taking the digest of a range reads the range once and in order, and ends in the hash of what flash holds
there or in the first read that fails. So data for which a digest is awaited is accepted exactly if it is
that hash, and whether it was is what the verdict then says.
-/

namespace FirmwareUpdate

variable {page : Nat} {σ : Type} {config : Config} {chip : NorFlash σ} {view : NorFlash.View σ}

namespace Region

open Attempt

variable {address size : UInt32} {before after : Board σ}

/-- The digest of a range was taken: the range was read out, and this is the hash of what was there. -/
structure Taken (view : NorFlash.View σ) (address size : UInt32) (before : Board σ) (digest : Digest)
    (after : Board σ) : Prop where
  fits : address.toNat + size.toNat < UInt32.size
  digest : digest = Sha256.hash ((view.content before.flash).peek address.toNat size.toNat)
  reads : ∃ events, after.events = before.events ++ events.toArray ∧
    Sweeps (address.toNat + size.toNat) address.toNat events
  content : view.content after.flash = view.content before.flash

/-- The digest of a range was not taken: the range leaves the address space, or a read of it failed. -/
inductive NotTaken (view : NorFlash.View σ) (address size : UInt32) (before : Board σ) :
    UpdateError → Board σ → Prop
  | beyond {after : Board σ} (hbeyond : UInt32.size ≤ address.toNat + size.toNat)
      (hevents : after.events = before.events)
      (hcontent : view.content after.flash = view.content before.flash) :
      NotTaken view address size before (.flash .outOfBounds) after
  | unread {after : Board σ} {e : FlashError} {events : List Event}
      (hfits : address.toNat + size.toNat < UInt32.size)
      (hevents : after.events = before.events ++ events.toArray)
      (hbreaks : BreaksOff (address.toNat + size.toNat) e address.toNat events)
      (hcontent : view.content after.flash = view.content before.flash) :
      NotTaken view address size before (.flash e) after

theorem digest_taken (truthful : chip.Truthful view) (sound : view.Sound before.flash) :
    (digest chip address size).Yields before (Taken view address size before)
      (NotTaken view address size before) := by
  refine ((digest_yields truthful address size sound).and (digest_sweeps chip address size)).mono ?_ ?_
  · rintro _ after ⟨⟨hdigest, hcontent⟩, hfits, hreads⟩
    exact ⟨hfits, hdigest, hreads, hcontent⟩
  · rintro _ after ⟨⟨hcontent, -⟩, ⟨hbeyond, rfl, hevents⟩ | ⟨hfits, e, events, rfl, hevents, hbreaks⟩⟩
    · exact .beyond hbeyond hevents hcontent
    · exact .unread hfits hevents hbreaks hcontent

end Region

/-- Data was judged by the digest that it should be: it was accepted if it is, and else refused.
Nothing is awaited any more. -/
structure Exchange.JudgedBy (view : NorFlash.View σ) (expected : Digest) (address : UInt32)
    (bytes : Bytes) (x : Exchange page σ) : Prop where
  accepted_iff : x.answer = .ok () ↔ bytes = expected.toList
  matched : bytes = expected.toList →
    x.after.engine.session.verdict = .matched ∧ Event.told x.events = []
  mismatched : bytes.length = Sha256.digestSize → bytes ≠ expected.toList →
    x.answer = .error (.digestMismatch address) ∧ x.after.engine.session.verdict = .failed ∧
      Event.told x.events = [.progress (.digestFailed address)]
  otherwise : bytes.length ≠ Sha256.digestSize →
    x.answer = .error (.digestLength Sha256.digestSize bytes.length) ∧
      x.after.engine.session.verdict = x.before.engine.session.verdict ∧ Event.told x.events = []
  idle : x.after.engine.session.activity = .idle
  content : view.content x.after.flash = view.content x.before.flash

namespace Snapshot

open Attempt Engine

variable {s : Snapshot page σ} {now : UInt64} {bytes : Bytes} {address size : UInt32}

/-- Data for which the digest of a range is awaited is judged by the hash of what flash holds there. -/
theorem exchange_judged (truthful : chip.Truthful view) (sound : view.Sound s.flash)
    (hs : s.engine.Attentive chip) (hactivity : s.engine.session.activity = .digest address size)
    (hfits : address.toNat + size.toNat < UInt32.size)
    (hreads : chip.ReadsOut view address.toNat (address.toNat + size.toNat))
    (hle : bytes.length ≤ config.maxPacket) :
    (s.exchange config chip ⟨now, .data bytes⟩).JudgedBy view
      (Sha256.hash ((view.content s.flash).peek address.toNat size.toNat)) address bytes := by
  have hlength (digest : Digest) : digest.toList.length = Sha256.digestSize := Vector.length_toList
  refine exchange_holds (hs.yields_receive (by simp [hactivity]) ?_)
  refine yields_consume.mpr ⟨fun hlong => absurd hlong (Nat.not_lt.mpr hle), fun _ => ?_⟩
  rw [hactivity]
  refine yields_receiveDigest (fun hother => ?_) fun given hgiven => yields_checkDigest.mpr ?_
  · have hne (digest : Digest) : bytes ≠ digest.toList := fun h => hother (h ▸ hlength digest)
    exact
      { accepted_iff := by simp [hne]
        matched := fun h => absurd h (hne _)
        mismatched := fun h => absurd h hother
        otherwise := fun _ => ⟨rfl, rfl, rfl⟩
        idle := rfl
        content := rfl }
  · subst hgiven
    refine ((Region.digest_yields truthful address size sound).and
      (digest_looked truthful.inert sound address size)).mono ?_ ?_
    · rintro actual board ⟨⟨rfl, hcontent⟩, hkept⟩
      refine ⟨fun heq => ?_, fun hne => ?_⟩
      · subst heq
        exact
          { accepted_iff := by simp
            matched := fun _ => ⟨rfl, hkept.told⟩
            mismatched := fun _ h => absurd rfl h
            otherwise := fun h => absurd (hlength _) h
            idle := rfl
            content := hcontent }
      · have hdiffer : given.toList ≠ _ := fun h => hne (Vector.toList_inj.mp h).symm
        exact
          { accepted_iff := by simp [hdiffer]
            matched := fun h => absurd h hdiffer
            mismatched := fun _ _ => ⟨rfl, rfl, by simp [hkept.told, Event.IsCall]⟩
            otherwise := fun h => absurd (hlength _) h
            idle := rfl
            content := hcontent }
    · rintro _ _ ⟨⟨-, hunread⟩, -⟩
      exact absurd hreads (hunread hfits)

/-- Taking a digest succeeds exactly if the range is in the address space and every read of it does,
and then gives the hash of what flash holds there. Whatever came before, data for which a digest is
awaited is judged by that hash. -/
theorem digest_gate_accepts_only_the_hash (config : Config) (chip : NorFlash σ) (view : NorFlash.View σ)
    (hpos : 0 < page) (truthful : chip.Truthful view) :
    (∀ (board : Board σ) (address size : UInt32), view.Sound board.flash →
      (Region.digest chip address size).Yields board (Region.Taken view address size board)
        (Region.NotTaken view address size board)) ∧
    ∀ (flash : σ) (past : List Arrival) (now : UInt64) (bytes : Bytes) (address size : UInt32),
      let s := (⟨{}, flash⟩ : Snapshot page σ).run config chip past
      view.Sound s.flash → s.engine.session.activity = .digest address size →
        address.toNat + size.toNat < UInt32.size →
        chip.ReadsOut view address.toNat (address.toNat + size.toNat) →
        bytes.length ≤ config.maxPacket →
          (s.exchange config chip ⟨now, .data bytes⟩).JudgedBy view
            (Sha256.hash ((view.content s.flash).peek address.toNat size.toNat)) address bytes :=
  ⟨fun _ _ _ sound => Region.digest_taken truthful sound,
    fun flash past _ _ _ _ sound hactivity hfits hreads hle =>
      exchange_judged truthful sound (run_attentive hpos flash past) hactivity hfits hreads hle⟩

end Snapshot

open SmallDevice in
theorem digest_gate_accepts_only_the_hash_small :
    SmallDevice.chip.Truthful (FlashMemory.faultlessView 0 128) ∧
      (FlashMemory.faultlessView 0 128).Sound (run (check.take 1)).flash ∧
      (run (check.take 1)).engine.session.activity = .digest 32 4 ∧
      SmallDevice.chip.ReadsOut (FlashMemory.faultlessView 0 128) 32 36 ∧
      ∀ bytes, bytes.length ≤ SmallDevice.config.maxPacket →
        (next (check.take 1) (data bytes)).JudgedBy (FlashMemory.faultlessView 0 128)
          (Sha256.hash (LittleEndian.encode32 RecordTag.provisionalWord)) 32 bytes := by
  have htruthful : SmallDevice.chip.Truthful (FlashMemory.faultlessView 0 128) :=
    (FlashMemory.chip_steady 0 128 16).toHonest.truthful
  have hsound : (FlashMemory.faultlessView 0 128).Sound (run (check.take 1)).flash := by
    refine ⟨?_, ?_, ?_⟩ <;> decide +kernel
  have hactivity : (run (check.take 1)).engine.session.activity = .digest 32 4 := by decide +kernel
  have hreads : SmallDevice.chip.ReadsOut (FlashMemory.faultlessView 0 128) 32 36 :=
    FlashMemory.chip_readsOut (by decide) (by decide)
  have hpeek : ((FlashMemory.faultlessView 0 128).content (run (check.take 1)).flash).peek 32 4 =
      LittleEndian.encode32 RecordTag.provisionalWord := by decide +kernel
  refine ⟨htruthful, hsound, hactivity, hreads, fun bytes hle => ?_⟩
  have hjudged := (Snapshot.digest_gate_accepts_only_the_hash SmallDevice.config SmallDevice.chip
    (FlashMemory.faultlessView 0 128) (by decide : 0 < 16) htruthful).2 SmallDevice.flash (check.take 1) 0
    bytes 32 4 hsound hactivity (by decide) hreads hle
  rwa [← hpeek]

end FirmwareUpdate
