import HostBridge.Error
/-!
Programs over a set of operations: finite trees that perform an operation and go on with its answer
or its error. Whatever the operations mean, every run of a program ends if every operation does.
-/
namespace HostBridge

structure Effect where
  Op : Type
  Answer : Op → Type

inductive Prog (F : Effect) (α : Type) where
  | done (r : Except Error α)
  | abort (p : Panic)
  | perform (o : F.Op) (next : Except Error (F.Answer o) → Prog F α)

namespace Prog
variable {F : Effect} {α β : Type}

def bind : Prog F α → (α → Prog F β) → Prog F β
  | done (.ok a), f => f a
  | done (.error e), _ => done (.error e)
  | abort p, _ => abort p
  | perform o next, f => perform o fun r => bind (next r) f

def catchError : Prog F α → (Error → Prog F α) → Prog F α
  | done (.ok a), _ => done (.ok a)
  | done (.error e), f => f e
  | abort p, _ => abort p
  | perform o next, f => perform o fun r => catchError (next r) f

instance : Monad (Prog F) where
  pure a := done (.ok a)
  bind := bind

instance : MonadExceptOf Error (Prog F) where
  throw e := done (.error e)
  tryCatch := catchError

instance : Inhabited (Prog F α) := ⟨abort ⟨none⟩⟩

def op (o : F.Op) : Prog F (F.Answer o) := perform o done

def ofExcept (r : Except Error α) : Prog F α := done r

def attempt : Prog F α → Prog F (Except Error α)
  | done r => done (.ok r)
  | abort p => abort p
  | perform o next => perform o fun r => attempt (next r)

theorem bind_assoc {γ : Type} (p : Prog F α) (f : α → Prog F β) (g : β → Prog F γ) :
    (p.bind f).bind g = p.bind fun a => (f a).bind g := by
  induction p with
  | done r => cases r <;> rfl
  | abort _ => rfl
  | perform o next ih => simp only [bind, ih]

theorem bind_pure (p : Prog F α) : p.bind (fun a => done (.ok a)) = p := by
  induction p with
  | done r => cases r <;> rfl
  | abort _ => rfl
  | perform o next ih => simp only [bind, ih]

instance : LawfulMonad (Prog F) :=
  LawfulMonad.mk' (Prog F) bind_pure (fun _ _ => rfl) bind_assoc

end Prog
end HostBridge
