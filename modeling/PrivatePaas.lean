import PrivatePaas.Base.FileTree
import PrivatePaas.Base.Text
import PrivatePaas.Code.Cmd
import PrivatePaas.Code.List
import PrivatePaas.Codec
import PrivatePaas.Data
import PrivatePaas.Host.Connect
import PrivatePaas.Host.Content
import PrivatePaas.Host.Firewall
import PrivatePaas.Host.Links
import PrivatePaas.Host.Names
import PrivatePaas.Host.Operations
import PrivatePaas.Host.World
import PrivatePaas.Registry.Accounts
import PrivatePaas.Registry.Exclusive
import PrivatePaas.Results.Agreement
import PrivatePaas.Results.Bridge
import PrivatePaas.Results.Bystanders
import PrivatePaas.Results.Cancel
import PrivatePaas.Results.Cleanup
import PrivatePaas.Results.Completion
import PrivatePaas.Results.Crash
import PrivatePaas.Results.Distinct
import PrivatePaas.Results.Endpoints
import PrivatePaas.Results.Exclusion
import PrivatePaas.Results.Fallback
import PrivatePaas.Results.Firewall
import PrivatePaas.Results.Gateway
import PrivatePaas.Results.Hba
import PrivatePaas.Results.Ingress
import PrivatePaas.Results.Isolation
import PrivatePaas.Results.Limits
import PrivatePaas.Results.Listing
import PrivatePaas.Results.Orphans
import PrivatePaas.Results.Others
import PrivatePaas.Results.Pool
import PrivatePaas.Results.Records
import PrivatePaas.Results.Reservation
import PrivatePaas.Results.Routing
import PrivatePaas.Results.Sample
import PrivatePaas.Results.Script
import PrivatePaas.Results.Signals
import PrivatePaas.Results.Sole
import PrivatePaas.Results.Teardown
import PrivatePaas.Results.Template
import PrivatePaas.Results.Unparsed
import PrivatePaas.Results.Updates
