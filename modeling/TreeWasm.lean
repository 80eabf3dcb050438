import TreeWasm.Code.Parts
import TreeWasm.Golden.Compare
import TreeWasm.Golden.Summary
import TreeWasm.Main
import TreeWasm.Program.Parts
import TreeWasm.Proofs.Binary.Records
import TreeWasm.Proofs.Building.Marks
import TreeWasm.Proofs.Building.Ordinary
import TreeWasm.Proofs.Emission.Expressions
import TreeWasm.Proofs.Integers
import TreeWasm.Proofs.Lowering.Tables
import TreeWasm.Proofs.Scopes
import TreeWasm.Proofs.Settings.Flags
import TreeWasm.Proofs.Simplify.Progress
import TreeWasm.Proofs.Simplify.Settled
import TreeWasm.Proofs.Storage.Custody
import TreeWasm.Proofs.Storage.Representation
import TreeWasm.Proofs.Typing.Containment
import TreeWasm.Proofs.Typing.Literals
import TreeWasm.Proofs.Validation.Emitted
