import PegTemplates.Document.Writer
import PegTemplates.Main
import PegTemplates.Proofs.Binding.Faultless
import PegTemplates.Proofs.Binding.Placeholders
import PegTemplates.Proofs.Binding.Targets
import PegTemplates.Proofs.Building.Choosing
import PegTemplates.Proofs.Building.Closed
import PegTemplates.Proofs.Building.Failing
import PegTemplates.Proofs.Building.Folding
import PegTemplates.Proofs.Building.Histories
import PegTemplates.Proofs.Building.Normalizing
import PegTemplates.Proofs.Building.Skipping
import PegTemplates.Proofs.Building.Suffixes
import PegTemplates.Proofs.Emitting.Distinct
import PegTemplates.Proofs.Emitting.LeftOut
import PegTemplates.Proofs.Emitting.Limits
import PegTemplates.Proofs.Emitting.Sinks
import PegTemplates.Proofs.Emitting.Views
import PegTemplates.Proofs.Expanding.Ends
import PegTemplates.Proofs.Expanding.Unguarded
import PegTemplates.Proofs.Linking.Captures
import PegTemplates.Proofs.Reading.Positions
import PegTemplates.Proofs.Relating.Appending
import PegTemplates.Proofs.Relating.Orders
import PegTemplates.Proofs.Rendering.Composition
import PegTemplates.Proofs.Searching.Readings
import PegTemplates.Proofs.Storing.Entries
import PegTemplates.Proofs.Storing.Runs
