import Mathlib.Data.List.Basic

/-! Files whose contents survive a power failure only up to the last sync. -/

structure DurableFile (β : Type*) where
  content : List β
  synced : Nat
  bound : synced ≤ content.length

namespace DurableFile
variable {β : Type*}

def new : DurableFile β := ⟨[], 0, Nat.le_refl _⟩

def append (f : DurableFile β) (data : List β) : DurableFile β :=
  ⟨f.content ++ data, f.synced, Nat.le_trans f.bound (by simp)⟩

def sync (f : DurableFile β) : DurableFile β := ⟨f.content, f.content.length, Nat.le_refl _⟩

/-- What a power failure leaves. -/
def survives (f : DurableFile β) : List β := f.content.take f.synced

def fail (f : DurableFile β) : DurableFile β := ⟨f.survives, f.survives.length, Nat.le_refl _⟩

@[simp] theorem content_append (f : DurableFile β) (data : List β) :
    (f.append data).content = f.content ++ data := rfl

@[simp] theorem content_sync (f : DurableFile β) : f.sync.content = f.content := rfl

@[simp] theorem content_fail (f : DurableFile β) : f.fail.content = f.survives := rfl

@[simp] theorem survives_append (f : DurableFile β) (data : List β) :
    (f.append data).survives = f.survives :=
  List.take_append_of_le_length f.bound

@[simp] theorem survives_sync (f : DurableFile β) : f.sync.survives = f.content :=
  List.take_length

@[simp] theorem survives_fail (f : DurableFile β) : f.fail.survives = f.survives :=
  List.take_length

theorem survives_sublist (f : DurableFile β) : f.survives.Sublist f.content :=
  List.take_sublist _ _

theorem survives_eq {f : DurableFile β} (all : f.synced = f.content.length) :
    f.survives = f.content := by
  rw [survives, all, List.take_length]

end DurableFile
