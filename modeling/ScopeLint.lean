import ScopeLint.Bundle
import ScopeLint.Checker.Description
import ScopeLint.Main
import ScopeLint.Proofs.Checker.Branches
import ScopeLint.Proofs.Checker.Termination
import ScopeLint.Proofs.Checker.Completion
import ScopeLint.Proofs.Checker.Exports
import ScopeLint.Proofs.CommandLine.ExitStatus
import ScopeLint.Proofs.Session.FailedSources
import ScopeLint.Proofs.Session.Gathering
import ScopeLint.Proofs.Checker.Undisturbed
import ScopeLint.Proofs.Checker.UnresolvedNames
import ScopeLint.Proofs.Checker.EnclosingUses
import ScopeLint.Proofs.Checker.LoopVariables
import ScopeLint.Proofs.Checker.GeneratorReturns
import ScopeLint.Proofs.Checker.FutureImports
import ScopeLint.Proofs.Checker.HandlerGuards
import ScopeLint.Proofs.Session.LastMention
import ScopeLint.Proofs.Session.NearestFile
import ScopeLint.Proofs.Checker.DuplicateParameters
